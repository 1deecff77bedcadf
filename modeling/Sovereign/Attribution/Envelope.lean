import Sovereign.Identity.Directory

/-!
# Envelopes

`pkg/attribution`: the three framings a signed wire travels in.

* `RelayEnvelope` — one event with its origin's signature and the signed hops it took; version 3
  repeats the counter and the origin in the header, version 2 does not.  `RelayEnvelope.openHops`
  checks the hop signatures, each over everything before it.
* `BatchEnvelope` — many events under one signature, with a sequence number of the origin;
* `HybridEnvelope` — the same with two signatures.

No header field is covered by a signature: the origin signs the wire behind the header only.
-/

namespace Sovereign.Attribution

open Lib Sync Identity

/-- An Ed25519 signature, `[64]byte`. -/
abbrev OriginSig := FixedBytes 64

/-! ### Relay envelopes -/

def envelopeVersion : UInt16 := 3

def envelopeVersionV2 : UInt16 := 2

/-- `HopSize`: key, signature, wall time. -/
def hopSize : ℕ := 104

def headerLen : ℕ := 96

def headerLenV2 : ℕ := 72

def headerLenForVersion (ver : UInt16) : Option ℕ :=
  if ver = envelopeVersion then some headerLen
  else if ver = envelopeVersionV2 then some headerLenV2
  else none

def verifyCostPerHop32c : ℤ := 60211

/-- `MaxHopsForBudget`, of a budget in nanoseconds. -/
def maxHopsForBudget (budget : ℤ) : ℕ :=
  if budget ≤ 0 then 0 else (budget / verifyCostPerHop32c - 1).toNat

structure Hop where
  relayPub : PublicKey
  sig : FixedBytes 64
  wallUSec : Int64
deriving DecidableEq

structure RelayEnvelope where
  innerWire : Bytes
  originSig : OriginSig
  dotCounter : UInt64
  originNodeID : NodeID
  version : UInt16
  hops : List Hop
deriving DecidableEq

inductive EnvelopeError where
  | malformed
  | unsupportedVersion (ver : UInt16)
  | hopBoundExceeded
  | verify (hop : ℕ)
deriving DecidableEq

/-- Eight little-endian bytes as a signed time. -/
def getWall (bs : Bytes) : Int64 := (UInt64.ofNat (getLE bs)).toInt64

/-- A signed time as eight little-endian bytes. -/
def putWall (t : Int64) : Bytes := putLE 8 t.toUInt64.toNat

def readHop (wire : Bytes) (base : ℕ) : Hop where
  relayPub := .copyFrom 32 (slice wire base 32)
  sig := .copyFrom 64 (slice wire (base + 32) 64)
  wallUSec := getWall (slice wire (base + 96) 8)

/-- `UnmarshalRelayEnvelope`; bytes behind the last hop are ignored. -/
def unmarshalRelayEnvelope (wire : Bytes) : Except EnvelopeError RelayEnvelope :=
  if wire.length < 2 then .error .malformed
  else
    let ver := UInt16.ofNat (getLE (slice wire 0 2))
    match headerLenForVersion ver with
    | none => .error (.unsupportedVersion ver)
    | some hdrLen =>
      if wire.length < hdrLen then .error .malformed
      else
        let n := getLE (slice wire 2 2)
        let innerLen := getLE (slice wire 4 4)
        if wire.length < hdrLen + innerLen + n * hopSize then .error .malformed
        else
          .ok
            { innerWire := slice wire hdrLen innerLen
              originSig := .copyFrom 64 (slice wire 8 64)
              dotCounter :=
                if ver = envelopeVersion then UInt64.ofNat (getLE (slice wire 72 8)) else 0
              originNodeID :=
                if ver = envelopeVersion then .copyFrom 16 (slice wire 80 16) else .zero 16
              version := ver
              hops := (List.range n).map fun i => readHop wire (hdrLen + innerLen + i * hopSize) }

/-- `Marshal`: always version 3. -/
def RelayEnvelope.marshal (e : RelayEnvelope) : Bytes :=
  putLE 2 envelopeVersion.toNat ++ (putLE 2 e.hops.length ++ (putLE 4 e.innerWire.length ++
    (e.originSig.bytes ++ (putLE 8 e.dotCounter.toNat ++ (e.originNodeID.bytes ++ (e.innerWire ++
      e.hops.flatMap fun h => h.relayPub.bytes ++ (h.sig.bytes ++ putWall h.wallUSec)))))))

def signedMaterial (innerWire preceding : Bytes) (hopIndex : ℕ) (wallUSec : Int64) : Bytes :=
  innerWire ++ (preceding ++ (putLE 2 hopIndex ++ putWall wallUSec))

def openLoop (K : Crypto) (innerWire : Bytes) : Bytes → ℕ → List Hop → Except EnvelopeError Unit
  | _, _, [] => .ok ()
  | preceding, i, hop :: hops =>
    let material := signedMaterial innerWire preceding i hop.wallUSec
    if K.verifyCRDTFrame hop.relayPub material hop.sig.bytes then
      openLoop K innerWire material (i + 1) hops
    else .error (.verify i)

/-- `Open`: the inner wire, if the hops are few enough and all verify. -/
def RelayEnvelope.openHops (K : Crypto) (e : RelayEnvelope) (maxHops : ℕ) : Except EnvelopeError Bytes :=
  if maxHops < e.hops.length then .error .hopBoundExceeded
  else
    match openLoop K e.innerWire [] 0 e.hops with
    | .error err => .error err
    | .ok () => .ok e.innerWire

theorem openHops_ok {K : Crypto} {e : RelayEnvelope} {maxHops : ℕ} {inner : Bytes}
    (h : e.openHops K maxHops = .ok inner) : inner = e.innerWire := by
  rw [RelayEnvelope.openHops] at h
  split at h
  · cases h
  · split at h
    · cases h
    · exact (Except.ok.inj h).symm

/-! ### Batch and hybrid envelopes -/

def wireV1Magic : ℕ := 0x53424154

def wireHybridPQMagic : ℕ := 0x53485942

def wireDigestMagic : ℕ := 0x53445354

/-- The leading four bytes of a frame, as the `Is…Frame` tests read them. -/
def hasMagic (magic : ℕ) (frame : Bytes) : Bool := 4 ≤ frame.length && getBE (slice frame 0 4) = magic

def isBatchFrame (frame : Bytes) : Bool := hasMagic wireV1Magic frame

def isDigestFrame (frame : Bytes) : Bool := hasMagic wireDigestMagic frame

def isHybridFrame (frame : Bytes) : Bool := hasMagic wireHybridPQMagic frame

def batchEnvelopeHeaderLen : ℕ := 95

def pqSignatureSize : ℕ := 3309

def hybridEnvelopeHeaderLen : ℕ := 3404

/-- `BatchEnvelope`; the wire is what stands behind the header. -/
structure BatchEnvelope where
  originNodeID : NodeID
  originSig : OriginSig
  originSeq : UInt64
  batchCount : UInt16
  batchWire : Bytes
deriving DecidableEq

structure HybridEnvelope where
  originNodeID : NodeID
  edSig : OriginSig
  pqSig : FixedBytes pqSignatureSize
  originSeq : UInt64
  batchCount : UInt16
  batchWire : Bytes
deriving DecidableEq

/-- The errors of the two unmarshal functions: a bad header, or a zero signature. -/
inductive BatchError where
  | malformed
  | unsigned
deriving DecidableEq

/-- The start of a batch header: magic, version, sequence number, count, origin. -/
def batchHeader (magic : ℕ) (originSeq : UInt64) (batchCount : UInt16) (originNodeID : NodeID) : Bytes :=
  putBE 4 magic ++ (1 :: (putU64 originSeq ++ (putBE 2 batchCount.toNat ++ originNodeID.bytes)))

def marshalBatchEnvelope (originNodeID : NodeID) (originSig : OriginSig) (originSeq : UInt64)
    (batchCount : UInt16) (batchWire : Bytes) : Bytes :=
  batchHeader wireV1Magic originSeq batchCount originNodeID ++ (originSig.bytes ++ batchWire)

def unmarshalBatchEnvelope (wire : Bytes) : Except BatchError BatchEnvelope :=
  if wire.length < batchEnvelopeHeaderLen then .error .malformed
  else if getBE (slice wire 0 4) ≠ wireV1Magic then .error .malformed
  else if slice wire 4 1 ≠ [1] then .error .malformed
  else
    let env : BatchEnvelope :=
      { originNodeID := .copyFrom 16 (slice wire 15 16)
        originSig := .copyFrom 64 (slice wire 31 64)
        originSeq := getU64 (slice wire 5 8)
        batchCount := UInt16.ofNat (getBE (slice wire 13 2))
        batchWire := wire.drop batchEnvelopeHeaderLen }
    if env.originSig = .zero 64 then .error .unsigned else .ok env

def marshalHybridFrame (originNodeID : NodeID) (edSig : OriginSig) (pqSig : FixedBytes pqSignatureSize)
    (originSeq : UInt64) (batchCount : UInt16) (batchWire : Bytes) : Bytes :=
  batchHeader wireHybridPQMagic originSeq batchCount originNodeID
    ++ (edSig.bytes ++ (pqSig.bytes ++ batchWire))

def unmarshalHybridFrame (wire : Bytes) : Except BatchError HybridEnvelope :=
  if wire.length < hybridEnvelopeHeaderLen then .error .malformed
  else if getBE (slice wire 0 4) ≠ wireHybridPQMagic then .error .malformed
  else if slice wire 4 1 ≠ [1] then .error .malformed
  else
    let env : HybridEnvelope :=
      { originNodeID := .copyFrom 16 (slice wire 15 16)
        edSig := .copyFrom 64 (slice wire 31 64)
        pqSig := .copyFrom pqSignatureSize (slice wire 95 pqSignatureSize)
        originSeq := getU64 (slice wire 5 8)
        batchCount := UInt16.ofNat (getBE (slice wire 13 2))
        batchWire := wire.drop hybridEnvelopeHeaderLen }
    if env.edSig = .zero 64 ∨ env.pqSig = .zero pqSignatureSize then .error .unsigned else .ok env

/-! ### Round trips -/

theorem batchHeader_length (magic : ℕ) (originSeq : UInt64) (batchCount : UInt16)
    (originNodeID : NodeID) : (batchHeader magic originSeq batchCount originNodeID).length = 31 := by
  simp [batchHeader]

theorem batchHeader_fields {magic : ℕ} (hmagic : magic < 256 ^ 4) {originSeq : UInt64}
    {batchCount : UInt16} {originNodeID : NodeID} {wire rest : Bytes}
    (hwire : wire = batchHeader magic originSeq batchCount originNodeID ++ rest) :
    getBE (slice wire 0 4) = magic ∧ slice wire 4 1 = [1] ∧ getU64 (slice wire 5 8) = originSeq ∧
      UInt16.ofNat (getBE (slice wire 13 2)) = batchCount ∧
      FixedBytes.copyFrom 16 (slice wire 15 16) = originNodeID := by
  have hshape : wire = putBE 4 magic ++ ([1] ++ (putU64 originSeq ++ (putBE 2 batchCount.toNat ++
      (originNodeID.bytes ++ rest)))) := by simp [hwire, batchHeader]
  have hcount : getBE (putBE 2 batchCount.toNat) = batchCount.toNat :=
    getBE_putBE_of_lt (toNat_lt_256_pow_2 batchCount)
  -- behind the five bytes of magic and version
  have hfive : (putBE 4 magic ++ [1]).length = 5 := by simp
  have hskip : ∀ off len, 5 ≤ off → slice wire off len = slice (putU64 originSeq ++
      (putBE 2 batchCount.toNat ++ (originNodeID.bytes ++ rest))) (off - 5) len := by
    intro off len hoff
    rw [hshape, ← List.append_assoc, slice_skip (by omega), hfive]
  refine ⟨?_, ?_, ?_, ?_, ?_⟩
  · rw [hshape, slice_head (putBE_length _ _), getBE_putBE_of_lt hmagic]
  · rw [hshape, slice_skip (by simp), putBE_length]
    exact slice_head rfl _
  · rw [hskip 5 8 le_rfl]
    simp [slice_head]
  · rw [hskip 13 2 (by omega)]
    simp [slice_skip, slice_head, hcount]
  · rw [hskip 15 16 (by omega)]
    simp [slice_skip, slice_head]

/-- A marshalled batch is read back, unless its signature is all zero. -/
theorem unmarshal_marshalBatchEnvelope (originNodeID : NodeID) {originSig : OriginSig}
    (hsig : originSig ≠ .zero 64) (originSeq : UInt64) (batchCount : UInt16) (batchWire : Bytes) :
    unmarshalBatchEnvelope (marshalBatchEnvelope originNodeID originSig originSeq batchCount batchWire)
      = .ok ⟨originNodeID, originSig, originSeq, batchCount, batchWire⟩ := by
  set wire := marshalBatchEnvelope originNodeID originSig originSeq batchCount batchWire with hwire
  obtain ⟨h1, h2, h3, h4, h5⟩ := batchHeader_fields (by decide : wireV1Magic < 256 ^ 4)
    (show wire = batchHeader wireV1Magic originSeq batchCount originNodeID
      ++ (originSig.bytes ++ batchWire) from rfl)
  have hhead := batchHeader_length wireV1Magic originSeq batchCount originNodeID
  have hlen : ¬ wire.length < batchEnvelopeHeaderLen := by
    simp [hwire, marshalBatchEnvelope, hhead, batchEnvelopeHeaderLen]
    omega
  have hsigField : FixedBytes.copyFrom 64 (slice wire 31 64) = originSig := by
    rw [hwire, marshalBatchEnvelope, slice_skip hhead.le, hhead, slice_head originSig.length_bytes,
      FixedBytes.copyFrom_self]
  have hdrop : wire.drop batchEnvelopeHeaderLen = batchWire := by
    rw [hwire, marshalBatchEnvelope, ← List.append_assoc]
    exact drop_append_len (by simp [hhead, batchEnvelopeHeaderLen]) _
  rw [unmarshalBatchEnvelope, if_neg hlen, if_neg (not_not.mpr h1), if_neg (not_not.mpr h2)]
  simp only [h3, h4, h5, hsigField, hdrop, if_neg hsig]

/-- A marshalled hybrid batch is read back, unless a signature is all zero. -/
theorem unmarshal_marshalHybridFrame (originNodeID : NodeID) {edSig : OriginSig} (hed : edSig ≠ .zero 64)
    {pqSig : FixedBytes pqSignatureSize} (hpq : pqSig ≠ .zero pqSignatureSize) (originSeq : UInt64)
    (batchCount : UInt16) (batchWire : Bytes) :
    unmarshalHybridFrame (marshalHybridFrame originNodeID edSig pqSig originSeq batchCount batchWire)
      = .ok ⟨originNodeID, edSig, pqSig, originSeq, batchCount, batchWire⟩ := by
  set wire := marshalHybridFrame originNodeID edSig pqSig originSeq batchCount batchWire with hwire
  obtain ⟨h1, h2, h3, h4, h5⟩ := batchHeader_fields (by decide : wireHybridPQMagic < 256 ^ 4)
    (show wire = batchHeader wireHybridPQMagic originSeq batchCount originNodeID
      ++ (edSig.bytes ++ (pqSig.bytes ++ batchWire)) from rfl)
  have hhead := batchHeader_length wireHybridPQMagic originSeq batchCount originNodeID
  have hsigs : (batchHeader wireHybridPQMagic originSeq batchCount originNodeID ++ edSig.bytes).length
      = 95 := by simp [hhead]
  have hlen : ¬ wire.length < hybridEnvelopeHeaderLen := by
    simp [hwire, marshalHybridFrame, hhead, hybridEnvelopeHeaderLen, pqSignatureSize]
    omega
  have hedField : FixedBytes.copyFrom 64 (slice wire 31 64) = edSig := by
    rw [hwire, marshalHybridFrame, slice_skip hhead.le, hhead, slice_head edSig.length_bytes,
      FixedBytes.copyFrom_self]
  have hpqField : FixedBytes.copyFrom pqSignatureSize (slice wire 95 pqSignatureSize) = pqSig := by
    rw [hwire, marshalHybridFrame, ← List.append_assoc, slice_skip hsigs.le, hsigs,
      slice_head pqSig.length_bytes, FixedBytes.copyFrom_self]
  have hdrop : wire.drop hybridEnvelopeHeaderLen = batchWire := by
    rw [hwire, marshalHybridFrame, ← List.append_assoc, ← List.append_assoc]
    exact drop_append_len (by simp [hhead, hybridEnvelopeHeaderLen, pqSignatureSize]) _
  rw [unmarshalHybridFrame, if_neg hlen, if_neg (not_not.mpr h1), if_neg (not_not.mpr h2)]
  simp only [h3, h4, h5, hedField, hpqField, hdrop, if_neg (not_or.mpr ⟨hed, hpq⟩)]

theorem batchHeader_of_slices {wire : Bytes} (hlen : 31 ≤ wire.length) (hver : slice wire 4 1 = [1]) :
    batchHeader (getBE (slice wire 0 4)) (getU64 (slice wire 5 8)) (UInt16.ofNat (getBE (slice wire 13 2)))
      (.copyFrom 16 (slice wire 15 16)) = slice wire 0 31 := by
  have hput : ∀ {off w : ℕ}, off + w ≤ 31 → putBE w (getBE (slice wire off w)) = slice wire off w := by
    intro off w h
    have hback := putBE_getBE (slice wire off w)
    rwa [slice_length (by omega)] at hback
  have hcount : getBE (slice wire 13 2) < 2 ^ 16 := by
    have hlt := getBE_lt (slice wire 13 2)
    rwa [slice_length (by omega)] at hlt
  rw [batchHeader, hput (by omega), putU64_getU64 (slice_length (by omega)), UInt16.toNat_ofNat_of_lt' hcount,
    hput (by omega), FixedBytes.copyFrom_bytes (slice_length (by omega)), slice_append, slice_append,
    ← List.singleton_append, ← hver, slice_append, slice_append]

/-- **The frames that are accepted** are those the marshal functions write with signatures other than zero. -/
theorem accepted_frames_canonical (wire : Bytes) :
    (∀ env : BatchEnvelope, unmarshalBatchEnvelope wire = .ok env ↔ env.originSig ≠ .zero 64 ∧
      wire = marshalBatchEnvelope env.originNodeID env.originSig env.originSeq env.batchCount env.batchWire) ∧
    ∀ env : HybridEnvelope, unmarshalHybridFrame wire = .ok env ↔
      (env.edSig ≠ .zero 64 ∧ env.pqSig ≠ .zero pqSignatureSize) ∧ wire =
        marshalHybridFrame env.originNodeID env.edSig env.pqSig env.originSeq env.batchCount env.batchWire := by
  refine ⟨fun env => ⟨fun h => ?_, fun ⟨hsig, heq⟩ => ?_⟩, fun env => ⟨fun h => ?_, fun ⟨⟨hed, hpq⟩, heq⟩ => ?_⟩⟩
  · rw [unmarshalBatchEnvelope, batchEnvelopeHeaderLen] at h
    dsimp only at h
    split_ifs at h with hlen hmagic hver hsig
    cases h
    refine ⟨hsig, ?_⟩
    rw [marshalBatchEnvelope, ← not_not.mp hmagic, batchHeader_of_slices (by omega) (not_not.mp hver),
      FixedBytes.copyFrom_bytes (slice_length (by omega)), ← List.append_assoc, slice_append]
    exact (List.take_append_drop _ _).symm
  · rw [heq]
    exact unmarshal_marshalBatchEnvelope _ hsig _ _ _
  · rw [unmarshalHybridFrame, hybridEnvelopeHeaderLen] at h
    dsimp only at h
    split_ifs at h with hlen hmagic hver hsig
    cases h
    refine ⟨not_or.mp hsig, ?_⟩
    rw [marshalHybridFrame, ← not_not.mp hmagic, batchHeader_of_slices (by omega) (not_not.mp hver),
      FixedBytes.copyFrom_bytes (slice_length (by omega)),
      FixedBytes.copyFrom_bytes (slice_length (by rw [pqSignatureSize]; omega)), ← List.append_assoc,
      ← List.append_assoc, slice_append, slice_append]
    exact (List.take_append_drop _ _).symm
  · rw [heq]
    exact unmarshal_marshalHybridFrame _ hed hpq _ _ _

end Sovereign.Attribution

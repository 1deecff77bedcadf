import Sovereign.Wal.Log

/-!
# One record, and what replay makes of it

The appenders take an entry (`LogEntry`) and write one record; replay parses the record and adds the
entry to its result.  `absorbRecord_payload` closes this circle: what was written is added
(`Replayed.add`), as long as the record fits the length limit of replay.

`Replayed.addAll` is the result of a list of records.  Its lists are those of the entries in order
(`addAll_lists`), and its checkpoint is the last one (`addAll_checkpoint`), with a clock that is not
credible replaced.
-/

namespace Sovereign.Wal

open Lib Sync

/-! ### One record -/

namespace LogEntry

def innerType : LogEntry → WALRecordType
  | .mutation _ => .mutationV2
  | .checkpoint c => if c.hasCutSeq then .checkpointV2 else .checkpoint
  | .clockAdvance _ => .clockAdvance

def inner : LogEntry → Bytes
  | .mutation m => putMutationV2Payload m
  | .checkpoint c =>
    if c.hasCutSeq then putCheckpointV2Payload c else c.merkleRoot.bytes ++ putU64 c.lamportHigh
  | .clockAdvance v => putClockAdvancePayload v

def payload (e : LogEntry) : Bytes := checksummedPayload e.innerType e.inner

/-- The record fits the length limit of replay. -/
def Fits (e : LogEntry) : Prop := e.payload.length ≤ maxRecordPayloadLen

instance (e : LogEntry) : Decidable e.Fits := inferInstanceAs (Decidable (_ ≤ _))

theorem encode_eq (e : LogEntry) (seq : UInt64) :
    e.encode seq = frame seq WALRecordType.checksummed.toByte e.payload := by
  cases e with
  | mutation m => rfl
  | clockAdvance v => rfl
  | checkpoint c =>
    simp only [encode, encodeCheckpointChecksummed, payload, innerType, inner, frameChecksummed]
    split <;> rfl

theorem payload_length (e : LogEntry) : e.payload.length = 5 + e.inner.length := by
  simp [payload, checksummedPayload]
  omega

theorem payload_length_mutation (m : WALMutation) :
    (LogEntry.mutation m).payload.length = 153 + m.entityID.length := by
  rw [payload_length, inner, putMutationV2Payload_length]
  omega

theorem fits_of_not_mutation {e : LogEntry} (h : ∀ m, e ≠ .mutation m) : e.Fits := by
  rw [Fits, payload_length, maxRecordPayloadLen]
  cases e with
  | mutation m => exact absurd rfl (h m)
  | clockAdvance v => simp [inner, putClockAdvancePayload]
  | checkpoint c =>
    simp only [inner, putCheckpointV2Payload]
    split
    · split <;> simp
    · simp

theorem Fits.lt {e : LogEntry} (h : e.Fits) : e.payload.length < 256 ^ 4 :=
  lt_of_le_of_lt h (by decide)

theorem Fits.entityID_lt {m : WALMutation} (h : (LogEntry.mutation m).Fits) :
    m.entityID.length < 256 ^ 4 := by
  have := h.lt
  rw [payload_length_mutation] at this
  omega

end LogEntry

theorem frame_length (seq : UInt64) (recType : UInt8) (payload : Bytes) :
    (frame seq recType payload).length = 13 + payload.length := by
  simp [frame]
  omega

theorem LogEntry.encode_length (e : LogEntry) (seq : UInt64) :
    (e.encode seq).length = 13 + e.payload.length := by rw [encode_eq, frame_length]

def headerBytes (seq : UInt64) (recType : UInt8) (payloadLen : ℕ) : Bytes :=
  putU64 seq ++ (recType :: putBE 4 payloadLen)

theorem headerBytes_length (seq : UInt64) (recType : UInt8) (payloadLen : ℕ) :
    (headerBytes seq recType payloadLen).length = 13 := by simp [headerBytes]

theorem frame_eq (seq : UInt64) (recType : UInt8) (payload : Bytes) :
    frame seq recType payload = headerBytes seq recType payload.length ++ payload := by
  simp [frame, headerBytes]

theorem readHeader_headerBytes {seq : UInt64} {recType : UInt8} {len : ℕ} (h : len < 256 ^ 4)
    (rest : Bytes) :
    readHeader (headerBytes seq recType len ++ rest) = some (⟨seq, recType, len⟩, rest) := by
  have hl : ¬ (headerBytes seq recType len ++ rest).length < 13 := by
    rw [List.length_append, headerBytes_length]
    omega
  rw [readHeader, if_neg hl, drop_append_len (headerBytes_length _ _ _)]
  have hshape : headerBytes seq recType len ++ rest
      = putU64 seq ++ ([recType] ++ (putBE 4 len ++ rest)) := by simp [headerBytes]
  have hseq : slice (putU64 seq ++ ([recType] ++ (putBE 4 len ++ rest))) 0 8 = putU64 seq :=
    slice_head (putU64_length _) _
  have htype : slice (putU64 seq ++ ([recType] ++ (putBE 4 len ++ rest))) 8 1 = [recType] := by
    rw [slice_skip (putU64_length _).le, putU64_length]
    exact slice_head rfl _
  have hlen : slice (putU64 seq ++ ([recType] ++ (putBE 4 len ++ rest))) 9 4 = putBE 4 len := by
    rw [slice_skip (by simp), putU64_length, slice_skip (by simp)]
    exact slice_head (putBE_length _ _) _
  rw [hshape, hseq, htype, hlen, getU64_putU64, getBE_putBE_of_lt h]
  rfl

theorem readHeader_short {bs : Bytes} (h : bs.length < 13) : readHeader bs = none := if_pos h

theorem unwrap_checksummedPayload (t : WALRecordType) (inner : Bytes) (seq : UInt64) :
    unwrapChecksummed (checksummedPayload t inner) seq = .ok (t.toByte, inner) := by
  have hlen : (checksummedPayload t inner).length = (t.toByte :: inner).length + 4 := by
    simp [checksummedPayload]
  have hshape : checksummedPayload t inner
      = (t.toByte :: inner) ++ putU32 (crc32c (t.toByte :: inner)) := rfl
  rw [unwrapChecksummed, if_neg (by rw [hlen, List.length_cons]; omega)]
  simp only [hlen, Nat.add_sub_cancel]
  rw [hshape, take_append_len rfl, drop_append_len rfl, getU32_putU32]
  simp

/-! ### What replay makes of an entry -/

/-- A checkpoint as it is stored: fields without their flag are not written. -/
def WALCheckpoint.readBack (c : WALCheckpoint) : WALCheckpoint :=
  if c.hasCutSeq then { c with fingerprint := if c.hasFingerprint then c.fingerprint else .zero 32 }
  else { WALCheckpoint.zero with merkleRoot := c.merkleRoot, lamportHigh := c.lamportHigh }

namespace Replayed

def add (out : Replayed) (seq : UInt64) : LogEntry → Replayed
  | .mutation m => out.addMutation .mutationV2 m.readBack seq
  | .clockAdvance v => out.addAdvance v seq
  | .checkpoint c =>
    if c.hasCutSeq then
      (out.clampClock c.readBack).1.addCheckpoint (out.clampClock c.readBack).2
        (!c.hasFingerprint) seq
    else out.addCheckpoint c.readBack true seq

/-- The effect of a list of records, numbered from `n` on. -/
def addAll (out : Replayed) : ℕ → List LogEntry → Replayed
  | _, [] => out
  | n, e :: es => ((out.count (UInt64.ofNat n)).add (UInt64.ofNat n) e).addAll (n + 1) es

theorem addAll_append (out : Replayed) (n : ℕ) (es fs : List LogEntry) :
    out.addAll n (es ++ fs) = (out.addAll n es).addAll (n + es.length) fs := by
  induction es generalizing out n with
  | nil => rfl
  | cons e es ih =>
    rw [List.cons_append, addAll, ih, addAll, List.length_cons]
    congr 1
    omega

theorem absorb_checkpointV2 (out : Replayed) (seq : UInt64) {c : WALCheckpoint}
    (hc : c.hasCutSeq = true) :
    out.absorb seq WALRecordType.checkpointV2.toByte (putCheckpointV2Payload c)
      = .ok (out.add seq (.checkpoint c)) := by
  have hslices : slice (putCheckpointV2Payload c) 0 32 = c.merkleRoot.bytes ∧
      slice (putCheckpointV2Payload c) 32 8 = putU64 c.lamportHigh ∧
      slice (putCheckpointV2Payload c) 40 8 = putU64 c.cutSeq ∧
      slice (putCheckpointV2Payload c) 48 8 = putU64 c.clockHigh := by
    simp [putCheckpointV2Payload, slice_skip, slice_head]
  obtain ⟨h1, h2, h3, h4⟩ := hslices
  have hfp : c.hasFingerprint = true →
      slice (putCheckpointV2Payload c) 56 32 = c.fingerprint.bytes := fun h => by
    simp [putCheckpointV2Payload, slice_skip, slice_all, h]
  have hlen : (putCheckpointV2Payload c).length = if c.hasFingerprint then 88 else 56 := by
    cases h : c.hasFingerprint <;> simp [putCheckpointV2Payload, h]
  have hback : c.readBack = ⟨c.merkleRoot, if c.hasFingerprint then c.fingerprint else .zero 32,
      c.lamportHigh, c.cutSeq, c.clockHigh, true, c.hasFingerprint⟩ := by
    simp [WALCheckpoint.readBack, hc]
  rw [absorb, WALRecordType.ofByte_toByte]
  simp only [h1, h2, h3, h4, getU64_putU64, FixedBytes.copyFrom_self, hlen, add, hc, if_true, hback]
  -- the clamp and the fingerprint touch different fields
  by_cases hclamp : maxCredibleClockHigh < c.clockHigh <;> cases h : c.hasFingerprint <;>
    simp [clampClock, hclamp, hfp, h, WALCheckpoint.zero]

theorem absorb_checkpoint (out : Replayed) (seq : UInt64) {c : WALCheckpoint}
    (hc : c.hasCutSeq = false) :
    out.absorb seq WALRecordType.checkpoint.toByte (c.merkleRoot.bytes ++ putU64 c.lamportHigh)
      = .ok (out.add seq (.checkpoint c)) := by
  rw [absorb, WALRecordType.ofByte_toByte]
  simp [slice_skip, slice_head, slice_all, add, hc, WALCheckpoint.readBack]

/-- The type switch on what the appenders wrote. -/
theorem absorb_inner (out : Replayed) (seq : UInt64) {e : LogEntry} (h : e.Fits) :
    out.absorb seq e.innerType.toByte e.inner = .ok (out.add seq e) := by
  cases e with
  | mutation m =>
    rw [LogEntry.innerType, LogEntry.inner, absorb, WALRecordType.ofByte_toByte]
    simp only [decode_putMutationV2Payload m h.entityID_lt, add]
  | clockAdvance v =>
    rw [LogEntry.innerType, LogEntry.inner, absorb, WALRecordType.ofByte_toByte]
    simp [putClockAdvancePayload, slice_all, add]
  | checkpoint c =>
    rw [LogEntry.innerType, LogEntry.inner]
    cases hc : c.hasCutSeq with
    | true => exact absorb_checkpointV2 out seq hc
    | false => exact absorb_checkpoint out seq hc

theorem absorbRecord_payload (out : Replayed) (seq : UInt64) {e : LogEntry} (h : e.Fits) :
    out.absorbRecord seq WALRecordType.checksummed.toByte e.payload = .ok (out.add seq e) := by
  rw [absorbRecord, if_pos rfl, LogEntry.payload, unwrap_checksummedPayload]
  exact absorb_inner out seq h

@[simp] theorem add_recordsVerified (out : Replayed) (seq : UInt64) (e : LogEntry) :
    (out.add seq e).recordsVerified = out.recordsVerified := by
  cases e with
  | mutation m => rfl
  | clockAdvance v => rfl
  | checkpoint c =>
    simp only [add, addCheckpoint, clampClock]
    split_ifs <;> rfl

@[simp] theorem addAll_recordsVerified (out : Replayed) (n : ℕ) (es : List LogEntry) :
    (out.addAll n es).recordsVerified = out.recordsVerified + es.length := by
  induction es generalizing out n with
  | nil => rfl
  | cons e es ih =>
    rw [addAll, ih, add_recordsVerified, List.length_cons, count]
    simp only
    omega

end Replayed

/-! ### What the result contains -/

namespace LogEntry

def mutation? : LogEntry → Option WALMutation
  | .mutation m => some m.readBack
  | _ => none

def advance? : LogEntry → Option UInt64
  | .clockAdvance v => some v
  | _ => none

def checkpoint? : LogEntry → Option WALCheckpoint
  | .checkpoint c => some c
  | _ => none

def toRecord (seq : UInt64) : LogEntry → Option WALRecord
  | .mutation m => some (.mutation .mutationV2 m.readBack seq)
  | .clockAdvance v => some (.clockAdvance v seq)
  | .checkpoint _ => none

end LogEntry

/-- The ordered result of entries numbered from `n` on. -/
def orderedFrom (n : ℕ) (es : List LogEntry) : List WALRecord :=
  (es.zipIdx n).filterMap fun p => p.1.toRecord (UInt64.ofNat p.2)

/-- The last checkpoint of entries numbered from `n` on, with its number. -/
def lastCheckpoint : ℕ → List LogEntry → Option (ℕ × WALCheckpoint)
  | _, [] => none
  | n, e :: es =>
    match lastCheckpoint (n + 1) es with
    | some r => some r
    | none => e.checkpoint?.map fun c => (n, c)

theorem lastCheckpoint_mem {n i : ℕ} {c : WALCheckpoint} {es : List LogEntry}
    (h : lastCheckpoint n es = some (i, c)) : n ≤ i ∧ es[i - n]? = some (.checkpoint c) := by
  induction es generalizing n with
  | nil => cases h
  | cons e es ih =>
    rw [lastCheckpoint] at h
    split at h
    · next r hr =>
      cases h
      obtain ⟨hle, hget⟩ := ih hr
      refine ⟨by omega, ?_⟩
      rw [show i - n = (i - (n + 1)) + 1 by omega]
      exact hget
    · cases e with
      | mutation m => cases h
      | clockAdvance v => cases h
      | checkpoint c' =>
        cases h
        exact ⟨le_refl _, by simp⟩

namespace Replayed

theorem add_lists (out : Replayed) (seq : UInt64) (e : LogEntry) :
    (out.add seq e).mutations = out.mutations ++ e.mutation?.toList ∧
      (out.add seq e).advances = out.advances ++ e.advance?.toList ∧
      (out.add seq e).ordered = out.ordered ++ (e.toRecord seq).toList ∧
      (out.add seq e).nextSeq = out.nextSeq := by
  cases e with
  | mutation m => exact ⟨rfl, (List.append_nil _).symm, rfl, rfl⟩
  | clockAdvance v => exact ⟨(List.append_nil _).symm, rfl, rfl, rfl⟩
  | checkpoint c =>
    simp only [add, addCheckpoint, clampClock, LogEntry.mutation?, LogEntry.advance?,
      LogEntry.toRecord]
    split_ifs <;> simp

theorem addAll_lists (out : Replayed) (n : ℕ) (es : List LogEntry) :
    (out.addAll n es).mutations = out.mutations ++ es.filterMap LogEntry.mutation? ∧
      (out.addAll n es).advances = out.advances ++ es.filterMap LogEntry.advance? ∧
      (out.addAll n es).ordered = out.ordered ++ orderedFrom n es := by
  induction es generalizing out n with
  | nil => simp [addAll, orderedFrom]
  | cons e es ih =>
    obtain ⟨h1, h2, h3⟩ := ih ((out.count (UInt64.ofNat n)).add (UInt64.ofNat n) e) (n + 1)
    obtain ⟨g1, g2, g3, -⟩ := (out.count (UInt64.ofNat n)).add_lists (UInt64.ofNat n) e
    have hcount : (out.count (UInt64.ofNat n)).mutations = out.mutations ∧
        (out.count (UInt64.ofNat n)).advances = out.advances ∧
        (out.count (UInt64.ofNat n)).ordered = out.ordered := ⟨rfl, rfl, rfl⟩
    rw [addAll, h1, h2, h3, g1, g2, g3, hcount.1, hcount.2.1, hcount.2.2]
    refine ⟨?_, ?_, ?_⟩
    · cases hm : e.mutation? <;> simp [hm]
    · cases ha : e.advance? <;> simp [ha]
    · cases hr : e.toRecord (UInt64.ofNat n) <;> simp [orderedFrom, List.zipIdx_cons, hr]

theorem addAll_nextSeq {out : Replayed} {n : ℕ} (h : out.nextSeq = UInt64.ofNat n)
    (es : List LogEntry) : (out.addAll n es).nextSeq = UInt64.ofNat (n + es.length) := by
  induction es generalizing out n with
  | nil => exact h
  | cons e es ih =>
    have hnext : ((out.count (UInt64.ofNat n)).add (UInt64.ofNat n) e).nextSeq
        = UInt64.ofNat (n + 1) := by
      rw [((out.count (UInt64.ofNat n)).add_lists (UInt64.ofNat n) e).2.2.2]
      simp only [count, h]
      rw [if_pos (UInt64.le_refl _), UInt64.ofNat_add]
      rfl
    rw [addAll, ih hnext, List.length_cons]
    congr 1
    omega

/-- A checkpoint in the result: as stored, unless its clock is not credible. -/
def IsCheckpoint (out : Replayed) (i : ℕ) (c : WALCheckpoint) : Prop :=
  out.hasCheckpoint = true ∧ out.finalCheckptSeq = UInt64.ofNat i ∧
    ∃ clock, out.finalCheckpt = { c.readBack with clockHigh := clock } ∧
      (c.readBack.clockHigh ≤ maxCredibleClockHigh → clock = c.readBack.clockHigh)

theorem add_checkpoint (out : Replayed) (n : ℕ) (c : WALCheckpoint) :
    (out.add (UInt64.ofNat n) (.checkpoint c)).IsCheckpoint n c := by
  simp only [add, addCheckpoint, clampClock]
  split
  · split
    · next hlt =>
      exact ⟨rfl, rfl, _, rfl, fun hle => absurd hlt (UInt64.not_lt.mpr hle)⟩
    · exact ⟨rfl, rfl, _, rfl, fun _ => rfl⟩
  · exact ⟨rfl, rfl, _, rfl, fun _ => rfl⟩

theorem add_not_checkpoint (out : Replayed) (seq : UInt64) {e : LogEntry} (h : e.checkpoint? = none) :
    (out.add seq e).hasCheckpoint = out.hasCheckpoint ∧
      (out.add seq e).finalCheckpt = out.finalCheckpt ∧
      (out.add seq e).finalCheckptSeq = out.finalCheckptSeq := by
  cases e with
  | mutation m => exact ⟨rfl, rfl, rfl⟩
  | clockAdvance v => exact ⟨rfl, rfl, rfl⟩
  | checkpoint c => cases h

theorem addAll_checkpoint (out : Replayed) (n : ℕ) (es : List LogEntry) :
    match lastCheckpoint n es with
    | some (i, c) => (out.addAll n es).IsCheckpoint i c
    | none => (out.addAll n es).hasCheckpoint = out.hasCheckpoint ∧
        (out.addAll n es).finalCheckpt = out.finalCheckpt ∧
        (out.addAll n es).finalCheckptSeq = out.finalCheckptSeq := by
  induction es generalizing out n with
  | nil => exact ⟨rfl, rfl, rfl⟩
  | cons e es ih =>
    have hrest := ih ((out.count (UInt64.ofNat n)).add (UInt64.ofNat n) e) (n + 1)
    rw [lastCheckpoint, addAll]
    cases hlast : lastCheckpoint (n + 1) es with
    | some r =>
      rw [hlast] at hrest
      exact hrest
    | none =>
      rw [hlast] at hrest
      obtain ⟨h1, h2, h3⟩ := hrest
      cases he : e.checkpoint? with
      | none =>
        obtain ⟨g1, g2, g3⟩ := add_not_checkpoint (out.count (UInt64.ofNat n)) (UInt64.ofNat n) he
        exact ⟨h1.trans g1, h2.trans g2, h3.trans g3⟩
      | some c =>
        have hec : e = .checkpoint c := by
          cases e with
          | mutation m => cases he
          | clockAdvance v => cases he
          | checkpoint c' => cases he; rfl
        obtain ⟨g1, g2, g3⟩ := add_checkpoint (out.count (UInt64.ofNat n)) n c
        subst hec
        exact ⟨h1.trans g1, h3.trans g2, by rw [h2]; exact g3⟩

end Replayed

end Sovereign.Wal

import Sovereign.Wal.Replay

/-!
# Bare records and checksummed frames

The log holds records of two generations: bare ones, whose outer type says what they are, and checksummed ones, whose
outer type is `WALRecChecksummed` and whose payload wraps type and payload of a bare one.  `ReplayWAL` unwraps a frame
and goes on as for the bare record, so a log says the same in both forms.

* `absorbRecord_stored` — one record: the frame adds what the bare record adds.
* `replayLoop_stored` — one round of the loop on a record in either form, with all its checks.
* `replayLoop_congr` — logs of the same records in different forms replay alike, with what follows them.
* `fits_of_replayLoop` — the frame is 5 bytes longer than the bare payload and the length limit is on what is stored, so
  a record that just fits bare is refused in its frame.
-/

namespace Sovereign.Wal

open Lib Sync

/-! ### Records in either form -/

/-- A record of a log apart from its form: one of the bare types, and its payload. -/
structure PlainRecord where
  seq : UInt64
  recType : WALRecordType
  payload : Bytes
  bare : recType ≠ .checksummed

/-- A record in a log: bare, or in the checksummed frame. -/
structure StoredRecord where
  plain : PlainRecord
  framed : Bool

namespace StoredRecord

def outerType (r : StoredRecord) : UInt8 :=
  if r.framed then WALRecordType.checksummed.toByte else r.plain.recType.toByte

def stored (r : StoredRecord) : Bytes :=
  if r.framed then checksummedPayload r.plain.recType r.plain.payload else r.plain.payload

def bytes (r : StoredRecord) : Bytes :=
  if r.framed then frameChecksummed r.plain.seq r.plain.recType r.plain.payload
  else frame r.plain.seq r.plain.recType.toByte r.plain.payload

/-- What is stored is within the limit of replay. -/
def Fits (r : StoredRecord) : Prop := r.stored.length ≤ maxRecordPayloadLen

instance (r : StoredRecord) : Decidable r.Fits := inferInstanceAs (Decidable (_ ≤ _))

theorem bytes_eq (r : StoredRecord) : r.bytes = frame r.plain.seq r.outerType r.stored := by
  unfold bytes outerType stored
  split <;> rfl

theorem stored_length (r : StoredRecord) :
    r.stored.length = r.plain.payload.length + if r.framed then 5 else 0 := by
  unfold stored
  split
  · simp [checksummedPayload]
  · rfl

theorem bytes_length (r : StoredRecord) : r.bytes.length = 13 + r.stored.length := by
  rw [bytes_eq, frame_length]

end StoredRecord

def logOf (rs : List StoredRecord) (tail : Bytes) : Bytes := fileHeader ++ (rs.flatMap StoredRecord.bytes ++ tail)

/-! ### One record -/

theorem WALRecordType.toByte_ne_checksummed {t : WALRecordType} (h : t ≠ .checksummed) :
    t.toByte ≠ WALRecordType.checksummed.toByte := by
  cases t with
  | checksummed => exact absurd rfl h
  | _ => decide

/-- In either form a record adds what its plain form says. -/
theorem absorbRecord_stored (out : Replayed) (r : StoredRecord) :
    out.absorbRecord r.plain.seq r.outerType r.stored
      = out.absorb r.plain.seq r.plain.recType.toByte r.plain.payload := by
  unfold StoredRecord.outerType StoredRecord.stored Replayed.absorbRecord
  cases r.framed with
  | true =>
    simp only [if_true]
    rw [unwrap_checksummedPayload]
  | false => exact if_neg (WALRecordType.toByte_ne_checksummed r.plain.bare)

/-- One round of the loop on a record in either form. -/
theorem replayLoop_stored {r : StoredRecord} (hlen : r.stored.length < 256 ^ 4) (fuel : ℕ) (rest : Bytes)
    (prevSeq : UInt64) (out : Replayed) :
    replayLoop (fuel + 1) (r.bytes ++ rest) prevSeq out
      = if maxRecordPayloadLen < r.stored.length then .error (.payloadTooLong r.stored.length r.plain.seq)
        else if out.recordsVerified = 0 ∧ r.plain.seq ≠ 0 then .error (.seqGapFirst r.plain.seq)
        else if 0 < out.recordsVerified ∧ r.plain.seq ≠ prevSeq + 1 then
          .error (.seqGap (prevSeq + 1) r.plain.seq out.recordsVerified)
        else
          match (out.count r.plain.seq).absorb r.plain.seq r.plain.recType.toByte r.plain.payload with
          | .error err => .error err
          | .ok out' => replayLoop fuel rest r.plain.seq out' := by
  have hfits : ¬ (r.stored ++ rest).length < r.stored.length := by
    rw [List.length_append]
    omega
  rw [r.bytes_eq, frame_eq, List.append_assoc, replayLoop, readHeader_headerBytes hlen]
  dsimp only
  rw [List.take_left, List.drop_left, absorbRecord_stored]
  -- the three checks before the one for a torn payload are on both sides
  exact if_congr Iff.rfl rfl (if_congr Iff.rfl rfl (if_congr Iff.rfl rfl (if_neg hfits)))

/-! ### The loop -/

theorem readHeader_length {bs rest : Bytes} {h : RecordHeader} (heq : readHeader bs = some (h, rest)) :
    rest.length + 13 = bs.length := by
  unfold readHeader at heq
  split at heq
  · cases heq
  next hlen =>
    obtain ⟨-, rfl⟩ := Prod.mk.inj (Option.some.inj heq)
    rw [List.length_drop]
    omega

/-- The fuel does not matter once it exceeds the length. -/
theorem replayLoop_fuel {bs : Bytes} {fuel fuel' : ℕ} (h : bs.length < fuel) (h' : bs.length < fuel')
    (prevSeq : UInt64) (out : Replayed) : replayLoop fuel bs prevSeq out = replayLoop fuel' bs prevSeq out := by
  induction fuel generalizing bs fuel' prevSeq out with
  | zero => omega
  | succ fuel ih =>
    obtain _ | fuel' := fuel'
    · omega
    rw [replayLoop, replayLoop]
    cases hread : readHeader bs with
    | none => rfl
    | some p =>
      obtain ⟨hd, rest⟩ := p
      have hlen := readHeader_length hread
      dsimp only
      split_ifs
      · rfl
      · rfl
      · rfl
      · rfl
      · cases (out.count hd.seq).absorbRecord hd.seq hd.recType (rest.take hd.payloadLen) with
        | error err => rfl
        | ok out' =>
          have hdrop : (rest.drop hd.payloadLen).length ≤ rest.length := by
            rw [List.length_drop]
            omega
          exact ih (by omega) (by omega) _ _

/-- Logs of the same records in different forms replay alike, if all fit. -/
theorem replayLoop_congr {rs rs' : List StoredRecord}
    (hsame : rs.map StoredRecord.plain = rs'.map StoredRecord.plain) (hfit : ∀ r ∈ rs, r.Fits)
    (hfit' : ∀ r ∈ rs', r.Fits) (tail : Bytes) {fuel fuel' : ℕ}
    (hfuel : (rs.flatMap StoredRecord.bytes ++ tail).length < fuel)
    (hfuel' : (rs'.flatMap StoredRecord.bytes ++ tail).length < fuel') (prevSeq : UInt64) (out : Replayed) :
    replayLoop fuel (rs.flatMap StoredRecord.bytes ++ tail) prevSeq out
      = replayLoop fuel' (rs'.flatMap StoredRecord.bytes ++ tail) prevSeq out := by
  induction rs generalizing rs' fuel fuel' prevSeq out with
  | nil =>
    obtain rfl : rs' = [] := by simpa using hsame.symm
    exact replayLoop_fuel hfuel hfuel' prevSeq out
  | cons r rs ih =>
    cases rs' with
    | nil => simp at hsame
    | cons r' rs' =>
      obtain ⟨hplain, hrest⟩ := List.cons.inj hsame
      have hr := hfit r List.mem_cons_self
      have hr' := hfit' r' List.mem_cons_self
      have hmax : maxRecordPayloadLen < 256 ^ 4 := by decide
      have hlt : r.stored.length < 256 ^ 4 := lt_of_le_of_lt hr hmax
      have hlt' : r'.stored.length < 256 ^ 4 := lt_of_le_of_lt hr' hmax
      obtain _ | fuel := fuel
      · omega
      obtain _ | fuel' := fuel'
      · omega
      rw [List.flatMap_cons, List.append_assoc, List.length_append, r.bytes_length] at hfuel
      rw [List.flatMap_cons, List.append_assoc, List.length_append, r'.bytes_length] at hfuel'
      rw [List.flatMap_cons, List.append_assoc, List.flatMap_cons, List.append_assoc, replayLoop_stored hlt,
        replayLoop_stored hlt', if_neg (Nat.not_lt.mpr hr), if_neg (Nat.not_lt.mpr hr'), hplain]
      split_ifs
      · rfl
      · rfl
      · cases (out.count r'.plain.seq).absorb r'.plain.seq r'.plain.recType.toByte r'.plain.payload with
        | error err => rfl
        | ok out' =>
          exact ih hrest (fun x hx => hfit x (List.mem_cons_of_mem _ hx))
            (fun x hx => hfit' x (List.mem_cons_of_mem _ hx)) (by omega) (by omega) _ _

theorem fits_of_replayLoop {rs : List StoredRecord} (hlen : ∀ r ∈ rs, r.stored.length < 256 ^ 4) (tail : Bytes)
    {fuel : ℕ} (hfuel : (rs.flatMap StoredRecord.bytes ++ tail).length < fuel) {prevSeq : UInt64}
    {out out' : Replayed} (h : replayLoop fuel (rs.flatMap StoredRecord.bytes ++ tail) prevSeq out = .ok out') :
    ∀ r ∈ rs, r.Fits := by
  induction rs generalizing fuel prevSeq out with
  | nil =>
    intro r hr
    cases hr
  | cons r rs ih =>
    obtain _ | fuel := fuel
    · omega
    rw [List.flatMap_cons, List.append_assoc, List.length_append, r.bytes_length] at hfuel
    rw [List.flatMap_cons, List.append_assoc, replayLoop_stored (hlen r List.mem_cons_self)] at h
    split_ifs at h with hlong hfirst hgap
    split at h
    · cases h
    next out₁ habsorb =>
    have hrest := ih (fun x hx => hlen x (List.mem_cons_of_mem _ hx)) (by omega) h
    intro x hx
    rcases List.mem_cons.mp hx with rfl | hx
    · exact Nat.not_lt.mp hlong
    · exact hrest x hx

/-! ### Whole logs -/

theorem replayWAL_logOf (rs : List StoredRecord) (tail : Bytes) :
    replayWAL (logOf rs tail)
      = (replayLoop ((logOf rs tail).length + 1) (rs.flatMap StoredRecord.bytes ++ tail) 0 .empty).map
          fun out => { out with seqContiguityVerified := true } := by
  rw [replayWAL, logOf, verifyHeader_fileHeader, drop_fileHeader]
  dsimp only
  cases replayLoop ((fileHeader ++ (rs.flatMap StoredRecord.bytes ++ tail)).length + 1)
    (rs.flatMap StoredRecord.bytes ++ tail) 0 .empty <;> rfl

theorem length_lt_fuel (rs : List StoredRecord) (tail : Bytes) :
    (rs.flatMap StoredRecord.bytes ++ tail).length < (logOf rs tail).length + 1 := by
  have hlen : (logOf rs tail).length = fileHeader.length + (rs.flatMap StoredRecord.bytes ++ tail).length :=
    List.length_append
  omega

theorem fits_of_replayWAL {rs : List StoredRecord} (hlen : ∀ r ∈ rs, r.stored.length < 256 ^ 4) {tail : Bytes}
    {out : Replayed} (h : replayWAL (logOf rs tail) = .ok out) : ∀ r ∈ rs, r.Fits := by
  rw [replayWAL_logOf] at h
  cases hloop : replayLoop ((logOf rs tail).length + 1) (rs.flatMap StoredRecord.bytes ++ tail) 0 .empty with
  | error err =>
    rw [hloop] at h
    cases h
  | ok out' => exact fits_of_replayLoop hlen tail (length_lt_fuel rs tail) hloop

/-- **The form of a record does not matter**, where the log is one of whole records whose lengths the length field
holds, followed by anything.  Logs of the same records in different forms replay alike if all of them are within the
limit; and a log that replays is replayed to the same in other forms exactly when those are within the limit. -/
theorem framed_and_bare_replay_alike {rs rs' : List StoredRecord}
    (hsame : rs.map StoredRecord.plain = rs'.map StoredRecord.plain)
    (hlen : ∀ r ∈ rs, r.stored.length < 256 ^ 4) (tail : Bytes) :
    ((∀ r ∈ rs, r.Fits) → (∀ r ∈ rs', r.Fits) → replayWAL (logOf rs tail) = replayWAL (logOf rs' tail)) ∧
      ∀ out, replayWAL (logOf rs tail) = .ok out →
        (replayWAL (logOf rs' tail) = .ok out ↔ ∀ r ∈ rs', r.Fits) := by
  have halike : (∀ r ∈ rs, r.Fits) → (∀ r ∈ rs', r.Fits) →
      replayWAL (logOf rs tail) = replayWAL (logOf rs' tail) := by
    intro hfit hfit'
    rw [replayWAL_logOf, replayWAL_logOf,
      replayLoop_congr hsame hfit hfit' tail (length_lt_fuel rs tail) (length_lt_fuel rs' tail)]
  refine ⟨halike, fun out hout => ?_⟩
  have hfit := fits_of_replayWAL hlen hout
  constructor
  · intro hout'
    -- what fits in one form has a length that the length field holds in the other
    refine fits_of_replayWAL (fun r' hr' => ?_) hout'
    have hplain : r'.plain ∈ rs.map StoredRecord.plain := hsame ▸ List.mem_map_of_mem hr'
    obtain ⟨r, hr, heq⟩ := List.mem_map.mp hplain
    have hle := hfit r hr
    rw [StoredRecord.Fits, r.stored_length, heq, maxRecordPayloadLen] at hle
    rw [r'.stored_length]
    split <;> omega
  · intro hfit'
    rw [← halike hfit hfit', hout]

def sampleAdvance (framed : Bool) : StoredRecord := ⟨⟨0, .clockAdvance, putU64 7, by decide⟩, framed⟩

theorem framed_and_bare_replay_alike_on_sample :
    replayWAL (logOf [sampleAdvance false] []) = replayWAL (logOf [sampleAdvance true] []) := by
  have hsame : [sampleAdvance false].map StoredRecord.plain = [sampleAdvance true].map StoredRecord.plain := rfl
  refine (framed_and_bare_replay_alike hsame ?_ []).1 ?_ ?_
  · decide
  · simp [StoredRecord.Fits, StoredRecord.stored_length, sampleAdvance, maxRecordPayloadLen]
  · simp [StoredRecord.Fits, StoredRecord.stored_length, sampleAdvance, maxRecordPayloadLen]

/-- The record of a mutation, the first of its log, in either form. -/
def mutationRecord (m : WALMutation) (framed : Bool) : StoredRecord :=
  ⟨⟨0, .mutationV2, putMutationV2Payload m, by decide⟩, framed⟩

theorem mutationRecord_length (m : WALMutation) (framed : Bool) :
    (mutationRecord m framed).stored.length = 148 + m.entityID.length + if framed then 5 else 0 := by
  rw [StoredRecord.stored_length]
  exact congrArg (· + _) (putMutationV2Payload_length m)

theorem replayWAL_mutationRecord (m : WALMutation) {framed : Bool} (hfit : (mutationRecord m framed).Fits) :
    replayWAL (logOf [mutationRecord m framed] [])
      = .ok { (Replayed.empty.count 0).addMutation .mutationV2 m.readBack 0 with seqContiguityVerified := true } := by
  have hlen := hfit
  rw [StoredRecord.Fits, mutationRecord_length, maxRecordPayloadLen] at hlen
  have hid : m.entityID.length < 256 ^ 4 := by omega
  have habsorb : (Replayed.empty.count 0).absorb 0 WALRecordType.mutationV2.toByte (putMutationV2Payload m)
      = .ok ((Replayed.empty.count 0).addMutation .mutationV2 m.readBack 0) := by
    rw [Replayed.absorb, WALRecordType.ofByte_toByte]
    dsimp only
    rw [decode_putMutationV2Payload _ hid]
  have hnil : ∀ fuel prevSeq out, replayLoop fuel [] prevSeq out = .ok out := by
    intro fuel prevSeq out
    cases fuel <;> rfl
  rw [replayWAL_logOf, List.flatMap_cons, List.flatMap_nil, List.append_nil,
    replayLoop_stored (lt_of_le_of_lt hfit (by decide)), if_neg (Nat.not_lt.mpr hfit), if_neg (fun h => h.2 rfl),
    if_neg (fun h => absurd h.1 (by decide))]
  dsimp only [mutationRecord]
  rw [habsorb]
  dsimp only
  rw [hnil]
  rfl

theorem replayWAL_mutationRecord_tooLong (m : WALMutation) {framed : Bool} (hid : m.entityID.length < 2 ^ 31)
    (hlong : ¬ (mutationRecord m framed).Fits) :
    replayWAL (logOf [mutationRecord m framed] [])
      = .error (.payloadTooLong (mutationRecord m framed).stored.length 0) := by
  have hlt : (mutationRecord m framed).stored.length < 256 ^ 4 := by
    rw [mutationRecord_length]
    split <;> omega
  rw [replayWAL_logOf, List.flatMap_cons, List.flatMap_nil, List.append_nil, replayLoop_stored hlt,
    if_pos (Nat.not_le.mp hlong)]
  rfl

/-- A mutation whose bare record is exactly as long as replay allows. -/
def longestMutation : WALMutation :=
  newWALMutation (List.replicate 4194156 0x61) ⟨.zero 16, 1⟩ ⟨.zero 32, .zero 16, .zero 16, 1, 0, 0, 0, 0, 0, 0⟩

/-- The bare record replays; in its frame it is refused. -/
theorem longest_record_refused_in_frame :
    (∃ out, replayWAL (logOf [mutationRecord longestMutation false] []) = .ok out ∧ out.mutations.length = 1) ∧
      replayWAL (logOf [mutationRecord longestMutation true] []) = .error (.payloadTooLong 4194309 0) := by
  have hid : longestMutation.entityID.length = 4194156 := List.length_replicate
  constructor
  · refine ⟨_, replayWAL_mutationRecord longestMutation ?_, rfl⟩
    rw [StoredRecord.Fits, mutationRecord_length, hid]
    decide
  · rw [replayWAL_mutationRecord_tooLong longestMutation (by omega), mutationRecord_length, hid]
    · rfl
    · rw [StoredRecord.Fits, mutationRecord_length, hid]
      decide

end Sovereign.Wal

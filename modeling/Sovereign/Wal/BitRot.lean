import Sovereign.Sync.Convergence
import Sovereign.Wal.Append

/-!
# Single-bit rot

One bit of one record of a log is flipped.  Where the bit lies decides what replay makes of it:

* in the sequence number — the number is not the expected one, replay fails;
* in the payload, inner type and checksum included — the checksum does not match, replay fails;
* in the type byte `0x06` — the type is unknown, or that of a mutation whose length field is
  impossible, with one exception: bit 2 makes it `0x02`, a legacy checkpoint, which has no checksum
  and is accepted (`LogEntry.asLegacy`);
* in the length field — a length beyond the limit fails; one beyond the end of the file reads as a
  torn tail, so that this record and all behind it are dropped without an error; any other
  one cuts the payload at a wrong place, where only the checksum can notice it.

`bit_rot_noticed` puts these together for every log, every record and every bit.
-/

namespace Sovereign.Wal

open Lib Sync

/-! ### The result of a whole log -/

/-- What replay returns for a log of these entries. -/
def replayed (es : List LogEntry) : Replayed :=
  { Replayed.empty.addAll 0 es with seqContiguityVerified := true }

variable {es : List LogEntry} {out : Replayed} {prevSeq : UInt64}

theorem replayWAL_whole (hfit : ∀ e ∈ es, e.Fits) :
    replayWAL (fileHeader ++ records 0 es) = .ok (replayed es) := by
  have h := replayWAL_records hfit (torn_nil es.length)
  rwa [List.append_nil] at h

theorem replayLoop_all {n : ℕ} (hexp : Expects out prevSeq n) (hfit : ∀ e ∈ es, e.Fits) {fuel : ℕ}
    (hfuel : es.length ≤ fuel) : replayLoop fuel (records n es) prevSeq out = .ok (out.addAll n es) := by
  obtain ⟨more, rfl⟩ := Nat.exists_eq_add_of_le hfuel
  obtain ⟨prevSeq', hexp', heq⟩ := replayLoop_records hexp hfit more []
  rw [List.append_nil] at heq
  rw [heq, replayLoop_torn hexp' (torn_nil _)]

/-- A record beyond the length limit makes the loop fail when it gets there. -/
theorem replayLoop_unfit {n : ℕ} (hexp : Expects out prevSeq n) (hlen : ∀ e ∈ es, e.payload.length < 256 ^ 4)
    (hunfit : ¬ ∀ e ∈ es, e.Fits) {fuel : ℕ} (hfuel : es.length ≤ fuel) (rest : Bytes) :
    ∃ err, replayLoop fuel (records n es ++ rest) prevSeq out = .error err := by
  induction es generalizing out prevSeq n fuel with
  | nil => exact absurd (by simp) hunfit
  | cons e es ih =>
    obtain ⟨fuel, rfl⟩ : ∃ k, fuel = k + 1 := ⟨fuel - 1, by simp at hfuel; omega⟩
    rw [records, List.append_assoc]
    by_cases he : e.Fits
    · rw [replayLoop_encode hexp he]
      refine ih (hexp.next e) (fun f hf => hlen f (List.mem_cons_of_mem _ hf)) (fun hall => ?_) ?_
      · apply hunfit
        intro f hf
        rcases List.mem_cons.mp hf with rfl | hf
        · exact he
        · exact hall f hf
      · simpa using hfuel
    · exact ⟨_, replayLoop_tooLong hexp he (hlen e List.mem_cons_self) fuel _⟩

theorem replayWAL_unfit (hlen : ∀ e ∈ es, e.payload.length < 256 ^ 4)
    (hunfit : ¬ ∀ e ∈ es, e.Fits) (rest : Bytes) :
    ∃ err, replayWAL (fileHeader ++ (records 0 es ++ rest)) = .error err := by
  have hnone : ∀ e ∈ ([] : List LogEntry), e.Fits := by simp
  obtain ⟨fuel, prevSeq, hexp, hfuel, heq⟩ := replayWAL_behind hnone (records 0 es ++ rest)
  have hstart : Expects .empty prevSeq 0 := hexp
  have hge := length_records_ge 0 es
  rw [List.length_append] at hfuel
  obtain ⟨err, herr⟩ := replayLoop_unfit hstart hlen hunfit
    (show es.length ≤ fuel + 1 by omega) rest
  refine ⟨err, heq.trans ?_⟩
  rw [Replayed.addAll, herr]
  rfl

/-! ### A flipped record -/

section
variable (e : LogEntry) (seq : UInt64) (k bit : ℕ)

/-- The length field of the record after a flip at offset `k`. -/
def LogEntry.flippedLen : ℕ := getBE (flipBit (putBE 4 e.payload.length) (k - 9) bit)

theorem LogEntry.flippedLen_lt : e.flippedLen k bit < 256 ^ 4 := by
  have h := getBE_lt (flipBit (putBE 4 e.payload.length) (k - 9) bit)
  rwa [flipBit_length, putBE_length] at h

theorem flip_seq (hk : k < 8) (hbit : bit < 8) :
    ∃ seq', seq' ≠ seq ∧ flipBit (e.encode seq) k bit
      = headerBytes seq' WALRecordType.checksummed.toByte e.payload.length ++ e.payload := by
  have hlt : k < (putU64 seq).length := by rwa [putU64_length]
  have hback : putU64 (getU64 (flipBit (putU64 seq) k bit)) = flipBit (putU64 seq) k bit :=
    putU64_getU64 (by rw [flipBit_length, putU64_length])
  refine ⟨getU64 (flipBit (putU64 seq) k bit), fun heq => ?_, ?_⟩
  · rw [heq] at hback
    exact flipBit_ne hlt hbit hback.symm
  · rw [e.encode_eq, frame, flipBit_append_left hlt, headerBytes, hback]
    simp

theorem flip_type (bit : ℕ) :
    flipBit (e.encode seq) 8 bit
      = headerBytes seq (flipByte bit WALRecordType.checksummed.toByte) e.payload.length
          ++ e.payload := by
  have hflip := flipBit_append_right (putU64 seq)
    (WALRecordType.checksummed.toByte :: (putBE 4 e.payload.length ++ e.payload)) 0 bit
  rw [putU64_length] at hflip
  rw [e.encode_eq, frame, hflip, headerBytes]
  simp [flipBit]

theorem flip_len (hk : 9 ≤ k) (hk' : k < 13) :
    flipBit (e.encode seq) k bit
      = headerBytes seq WALRecordType.checksummed.toByte (e.flippedLen k bit) ++ e.payload := by
  obtain ⟨j, rfl⟩ := Nat.exists_eq_add_of_le hk
  have hj : j < (putBE 4 e.payload.length).length := by
    rw [putBE_length]
    omega
  -- the length field lies between the nine bytes before it and the payload
  have hshape : e.encode seq = (putU64 seq ++ [WALRecordType.checksummed.toByte])
      ++ (putBE 4 e.payload.length ++ e.payload) := by
    rw [e.encode_eq, frame]
    simp
  have hnine : (putU64 seq ++ [WALRecordType.checksummed.toByte]).length = 9 := by simp
  have hback : putBE 4 (e.flippedLen (9 + j) bit) = flipBit (putBE 4 e.payload.length) j bit := by
    have h := putBE_getBE (flipBit (putBE 4 e.payload.length) j bit)
    rw [flipBit_length, putBE_length] at h
    rw [LogEntry.flippedLen, Nat.add_sub_cancel_left, h]
  have hflip := flipBit_append_right (putU64 seq ++ [WALRecordType.checksummed.toByte])
    (putBE 4 e.payload.length ++ e.payload) j bit
  rw [hnine, flipBit_append_left hj, ← hback] at hflip
  rw [hshape, hflip, headerBytes]
  simp

theorem flip_payload (hk : 13 ≤ k) :
    flipBit (e.encode seq) k bit
      = headerBytes seq WALRecordType.checksummed.toByte e.payload.length
          ++ flipBit e.payload (k - 13) bit := by
  obtain ⟨j, rfl⟩ := Nat.exists_eq_add_of_le hk
  have hflip := flipBit_append_right
    (headerBytes seq WALRecordType.checksummed.toByte e.payload.length) e.payload j bit
  rw [headerBytes_length] at hflip
  rw [e.encode_eq, frame_eq, hflip, Nat.add_sub_cancel_left]

end

/-! ### What replay makes of it -/

/-- A header with another sequence number than the expected one. -/
theorem replayLoop_wrongSeq {n : ℕ} (hexp : Expects out prevSeq n)
    {seq : UInt64} (hne : seq ≠ UInt64.ofNat n) {len : ℕ} (hlen : len < 256 ^ 4) (recType : UInt8)
    (fuel : ℕ) (rest : Bytes) :
    ∃ err, replayLoop (fuel + 1) (headerBytes seq recType len ++ rest) prevSeq out = .error err := by
  rw [replayLoop, readHeader_headerBytes hlen]
  simp only
  by_cases hlong : maxRecordPayloadLen < len
  · exact ⟨_, if_pos hlong⟩
  rw [if_neg hlong]
  rcases Nat.eq_zero_or_pos n with rfl | hpos
  · exact ⟨_, if_pos ⟨hexp.count, hne⟩⟩
  · have hcount : 0 < out.recordsVerified := by rwa [hexp.count]
    rw [if_neg (by omega)]
    refine ⟨_, if_pos ⟨hcount, fun heq => hne ?_⟩⟩
    obtain ⟨k, rfl⟩ : ∃ k, n = k + 1 := ⟨n - 1, by omega⟩
    rw [heq, hexp.prev hpos, Nat.add_sub_cancel, UInt64.ofNat_add]
    rfl

/-- A payload read as that of a mutation names an entity longer than any record. -/
theorem decode_payload_fails {e : LogEntry} (hfit : e.Fits) :
    ∃ err, decodeMutationV2Payload e.payload = .error err := by
  have hlen := e.payload_length
  have htype : 2 ≤ e.innerType.toByte.toNat := by
    cases e with
    | mutation m => exact (by decide : 2 ≤ WALRecordType.mutationV2.toByte.toNat)
    | clockAdvance v => exact (by decide : 2 ≤ WALRecordType.clockAdvance.toByte.toNat)
    | checkpoint c =>
      rw [LogEntry.innerType]
      split <;> decide
  obtain ⟨more, hmore, hslice⟩ : ∃ more : Bytes, more.length = 3 ∧
      slice e.payload 0 4 = e.innerType.toByte :: more := by
    refine ⟨(e.inner ++ putU32 (crc32c (e.innerType.toByte :: e.inner))).take 3, ?_, ?_⟩
    · simp
    · rw [LogEntry.payload, checksummedPayload, slice, List.drop_zero, List.take_succ_cons]
  have hid : 2 * 256 ^ 3 ≤ getBE (slice e.payload 0 4) := by
    rw [hslice, getBE_cons, hmore]
    exact (Nat.mul_le_mul_right (256 ^ 3) htype).trans (Nat.le_add_right _ _)
  have hbound : e.payload.length ≤ 4194304 := hfit
  rw [decodeMutationV2Payload, if_neg (by omega)]
  simp only
  exact ⟨_, if_pos (by omega)⟩

/-- The entry that the record of `e` reads as when its type byte is that of a legacy checkpoint. -/
def LogEntry.asLegacy (e : LogEntry) : LogEntry :=
  .checkpoint { WALCheckpoint.zero with
    merkleRoot := .copyFrom 32 (slice e.payload 0 32)
    lamportHigh := getU64 (slice e.payload 32 8) }

theorem absorbRecord_legacy (out : Replayed) (seq : UInt64) {e : LogEntry}
    (hlong : 40 ≤ e.payload.length) :
    out.absorbRecord seq (flipByte 2 WALRecordType.checksummed.toByte) e.payload
      = .ok (out.add seq e.asLegacy) := by
  have htype : flipByte 2 WALRecordType.checksummed.toByte = WALRecordType.checkpoint.toByte := by decide
  rw [htype, Replayed.absorbRecord, if_neg (by decide), Replayed.absorb,
    WALRecordType.ofByte_toByte]
  simp only
  rw [if_neg (by omega)]
  rfl

/-- A flip in the type byte, other than to a legacy checkpoint, is noticed. -/
theorem absorbRecord_flippedType (out : Replayed) (seq : UInt64) {e : LogEntry} (hfit : e.Fits)
    {bit : ℕ} (hbit : bit < 8) (hother : bit = 2 → e.payload.length < 40) :
    ∃ err, out.absorbRecord seq (flipByte bit WALRecordType.checksummed.toByte) e.payload
      = .error err := by
  have hne : flipByte bit WALRecordType.checksummed.toByte ≠ WALRecordType.checksummed.toByte :=
    flipByte_ne hbit _
  rw [Replayed.absorbRecord, if_neg hne]
  by_cases h1 : bit = 1
  · subst h1
    obtain ⟨err, herr⟩ := decode_payload_fails hfit
    have htype : WALRecordType.ofByte (flipByte 1 WALRecordType.checksummed.toByte)
      = some .mutationV2 := by decide
    exact ⟨err, by rw [Replayed.absorb, htype]; simp only [herr]⟩
  by_cases h2 : bit = 2
  · have hshort := hother h2
    subst h2
    have htype : WALRecordType.ofByte (flipByte 2 WALRecordType.checksummed.toByte)
      = some .checkpoint := by decide
    rw [Replayed.absorb, htype]
    exact ⟨_, if_pos hshort⟩
  have htype : WALRecordType.ofByte (flipByte bit WALRecordType.checksummed.toByte) = none := by
    interval_cases bit <;> first | decide | omega
  exact ⟨_, by rw [Replayed.absorb, htype]⟩

theorem unwrap_flip (e : LogEntry) (seq : UInt64) {j bit : ℕ} (hj : j < e.payload.length)
    (hbit : bit < 8) : ∃ err, unwrapChecksummed (flipBit e.payload j bit) seq = .error err := by
  set body := e.innerType.toByte :: e.inner with hbody
  have hpayload : e.payload = body ++ putU32 (crc32c body) := rfl
  have hlen : e.payload.length = body.length + 4 := by rw [hpayload]; simp
  rw [unwrapChecksummed, flipBit_length, if_neg (by rw [hlen, hbody, List.length_cons]; omega)]
  simp only [hlen, Nat.add_sub_cancel]
  by_cases hin : j < body.length
  · -- the body changes, its checksum with it
    rw [hpayload, flipBit_append_left hin, take_append_len (flipBit_length _ _ _),
      drop_append_len (flipBit_length _ _ _), getU32_putU32]
    exact ⟨_, if_pos (crc32c_flipBit_ne hin hbit).symm⟩
  · -- the stored checksum changes
    obtain ⟨i, rfl⟩ := Nat.exists_eq_add_of_le (Nat.le_of_not_lt hin)
    have hi : i < (putU32 (crc32c body)).length := by
      rw [putU32_length]
      omega
    rw [hpayload, flipBit_append_right, take_append_len rfl, drop_append_len rfl]
    have hback : putU32 (getU32 (flipBit (putU32 (crc32c body)) i bit))
        = flipBit (putU32 (crc32c body)) i bit :=
      putU32_getU32 (by rw [flipBit_length, putU32_length])
    refine ⟨_, if_pos fun heq => ?_⟩
    rw [heq] at hback
    exact flipBit_ne hi hbit hback.symm

/-! ### Every bit of every record -/

/-- Replay of the damaged file fails, or returns what it returned for the intact one. -/
def Noticed (damaged intact : Bytes) : Prop :=
  (∃ err, replayWAL damaged = .error err) ∨ replayWAL damaged = replayWAL intact

section
variable (pre : List LogEntry) (e : LogEntry) (post : List LogEntry) (k bit : ℕ)

/-- The log with bit `bit` of byte `k` of the record of `e` flipped. -/
def damagedLog : Bytes :=
  fileHeader ++ (records 0 pre
    ++ (flipBit (e.encode (UInt64.ofNat pre.length)) k bit ++ records (pre.length + 1) post))

/-- The bytes behind the header of the record of `e`. -/
def behindHeader : Bytes := e.payload ++ records (pre.length + 1) post

/-- The record reads as a legacy checkpoint. -/
structure ReadAsLegacy : Prop where
  flip : k = 8 ∧ bit = 2
  long : 40 ≤ e.payload.length

/-- The length field points behind the end of the file. -/
structure PastEnd : Prop where
  flip : 9 ≤ k ∧ k < 13
  le : e.flippedLen k bit ≤ maxRecordPayloadLen
  past : (behindHeader pre e post).length < e.flippedLen k bit

/-- The length field cuts the payload at a wrong place, and the four bytes before the cut are the checksum of those
before them. -/
structure Misframed : Prop where
  flip : 9 ≤ k ∧ k < 13
  within : 5 ≤ e.flippedLen k bit ∧ e.flippedLen k bit ≤ maxRecordPayloadLen ∧
    e.flippedLen k bit ≤ (behindHeader pre e post).length
  sums : getU32 (slice (behindHeader pre e post) (e.flippedLen k bit - 4) 4) =
    crc32c ((behindHeader pre e post).take (e.flippedLen k bit - 4))

/-- The flips that replay may not notice, and the logs with a length field that has wrapped. -/
inductive AtRisk : Prop
  | wrapped (f : LogEntry) (hf : f ∈ pre ++ e :: post) (hlen : 256 ^ 4 ≤ f.payload.length)
  | legacy (h : ReadAsLegacy e k bit)
  | pastEnd (h : PastEnd pre e post k bit)
  | misframed (h : Misframed pre e post k bit)

/-- The flips of readable logs that replay never notices: a mutation is read as a checkpoint, or the tail is lost. -/
structure Lost : Prop where
  fits : ∀ f ∈ pre ++ e :: post, f.Fits
  loses : (∃ m, e = .mutation m) ∧ ReadAsLegacy e k bit ∨ PastEnd pre e post k bit

end

section
variable {pre : List LogEntry} {e : LogEntry} {post : List LogEntry} {k bit : ℕ}

/-- Replay of a damaged log fails if its loop fails at the damaged record. -/
theorem damaged_fails (hpre : ∀ f ∈ pre, f.Fits)
    (h : ∀ prevSeq fuel, Expects (Replayed.empty.addAll 0 pre) prevSeq pre.length →
      ∃ err, replayLoop (fuel + 1) (flipBit (e.encode (UInt64.ofNat pre.length)) k bit
        ++ records (pre.length + 1) post) prevSeq (Replayed.empty.addAll 0 pre) = .error err) :
    ∃ err, replayWAL (damagedLog pre e post k bit) = .error err := by
  obtain ⟨fuel, prevSeq, hexp, -, heq⟩ := replayWAL_behind hpre
    (flipBit (e.encode (UInt64.ofNat pre.length)) k bit ++ records (pre.length + 1) post)
  obtain ⟨err, herr⟩ := h prevSeq fuel hexp
  refine ⟨err, heq.trans ?_⟩
  rw [herr]
  rfl

theorem damaged_seq (hpre : ∀ f ∈ pre, f.Fits) (he : e.payload.length < 256 ^ 4) (hk : k < 8)
    (hbit : bit < 8) : ∃ err, replayWAL (damagedLog pre e post k bit) = .error err := by
  refine damaged_fails hpre fun prevSeq fuel hexp => ?_
  obtain ⟨seq, hne, heq⟩ := flip_seq e (UInt64.ofNat pre.length) k bit hk hbit
  rw [heq, List.append_assoc]
  exact replayLoop_wrongSeq hexp hne he _ fuel _

theorem damaged_payload (hpre : ∀ f ∈ pre, f.Fits) (he : e.payload.length < 256 ^ 4) (hk : 13 ≤ k)
    (hk' : k < 13 + e.payload.length) (hbit : bit < 8) :
    ∃ err, replayWAL (damagedLog pre e post k bit) = .error err := by
  refine damaged_fails hpre fun prevSeq fuel hexp => ?_
  obtain ⟨err, herr⟩ := unwrap_flip e (UInt64.ofNat pre.length) (show k - 13 < e.payload.length by omega)
    hbit
  have hlen : (flipBit e.payload (k - 13) bit).length = e.payload.length := flipBit_length _ _ _
  rw [flip_payload e _ k bit hk, List.append_assoc, replayLoop_header hexp he]
  by_cases hlong : maxRecordPayloadLen < e.payload.length
  · exact ⟨_, if_pos hlong⟩
  · rw [if_neg hlong, if_neg (by rw [List.length_append, hlen]; omega), take_append_len hlen]
    refine ⟨err, ?_⟩
    simp only [Replayed.absorbRecord, if_true, herr]

theorem damaged_type (hpre : ∀ f ∈ pre, f.Fits) (he : e.payload.length < 256 ^ 4) (hbit : bit < 8)
    (hother : bit = 2 → e.payload.length < 40) :
    ∃ err, replayWAL (damagedLog pre e post 8 bit) = .error err := by
  refine damaged_fails hpre fun prevSeq fuel hexp => ?_
  rw [flip_type, List.append_assoc, replayLoop_header hexp he]
  by_cases hfit : e.Fits
  · obtain ⟨err, herr⟩ := absorbRecord_flippedType
      ((Replayed.empty.addAll 0 pre).count (UInt64.ofNat pre.length)) (UInt64.ofNat pre.length) hfit hbit
      hother
    rw [if_neg (Nat.not_lt.mpr hfit), if_neg (by simp), List.take_left]
    refine ⟨err, ?_⟩
    simp only [herr]
  · exact ⟨_, if_pos (Nat.lt_of_not_le hfit)⟩

/-- Bit 2 of the type byte: the log reads as if the entry were the legacy checkpoint. -/
theorem damaged_legacy (hfits : ∀ f ∈ pre ++ e :: post, f.Fits) (hlong : 40 ≤ e.payload.length) :
    replayWAL (damagedLog pre e post 8 2) = .ok (replayed (pre ++ e.asLegacy :: post)) := by
  have he : e.Fits := hfits e (by simp)
  have hpre : ∀ f ∈ pre, f.Fits := fun f hf => hfits f (by simp [hf])
  have hpost : ∀ f ∈ post, f.Fits := fun f hf => hfits f (by simp [hf])
  obtain ⟨fuel, prevSeq, hexp, hfuel, heq⟩ := replayWAL_behind hpre
    (flipBit (e.encode (UInt64.ofNat pre.length)) 8 2 ++ records (pre.length + 1) post)
  have hge := length_records_ge (pre.length + 1) post
  have hrest : post.length ≤ fuel := by
    rw [List.length_append] at hfuel
    omega
  -- one round reads the legacy checkpoint, the rest is as before
  rw [flip_type, List.append_assoc, replayLoop_header hexp he.lt, if_neg (Nat.not_lt.mpr he),
    if_neg (by simp), List.take_left, List.drop_left, absorbRecord_legacy _ _ hlong] at heq
  simp only at heq
  rw [damagedLog, flip_type, List.append_assoc, heq, replayLoop_all (hexp.next e.asLegacy) hpost hrest, replayed,
    Replayed.addAll_append, Nat.zero_add]
  rfl

/-- A length that points behind the end of the file: this record and all behind it are dropped. -/
theorem damaged_pastEnd (hpre : ∀ f ∈ pre, f.Fits) (h : PastEnd pre e post k bit) :
    replayWAL (damagedLog pre e post k bit) = .ok (replayed pre) := by
  obtain ⟨fuel, prevSeq, hexp, -, heq⟩ := replayWAL_behind hpre
    (flipBit (e.encode (UInt64.ofNat pre.length)) k bit ++ records (pre.length + 1) post)
  have hpast : (e.payload ++ records (pre.length + 1) post).length < e.flippedLen k bit := h.past
  refine heq.trans ?_
  rw [flip_len e _ k bit h.flip.1 h.flip.2, List.append_assoc,
    replayLoop_header hexp (e.flippedLen_lt k bit), if_neg (Nat.not_lt.mpr h.le), if_pos hpast]
  rfl

/-- Any other length is refused, unless the checksum matches at the wrong place. -/
theorem damaged_len (hpre : ∀ f ∈ pre, f.Fits) (hk : 9 ≤ k ∧ k < 13)
    (hpast : ¬ PastEnd pre e post k bit) (hframe : ¬ Misframed pre e post k bit) :
    ∃ err, replayWAL (damagedLog pre e post k bit) = .error err := by
  refine damaged_fails hpre fun prevSeq fuel hexp => ?_
  rw [flip_len e _ k bit hk.1 hk.2, List.append_assoc,
    replayLoop_header hexp (e.flippedLen_lt k bit)]
  by_cases hlong : maxRecordPayloadLen < e.flippedLen k bit
  · exact ⟨_, if_pos hlong⟩
  have hle : e.flippedLen k bit ≤ maxRecordPayloadLen := Nat.le_of_not_lt hlong
  have hwithin : ¬ (e.payload ++ records (pre.length + 1) post).length < e.flippedLen k bit :=
    fun hlt => hpast ⟨hk, hle, hlt⟩
  rw [if_neg hlong, if_neg hwithin]
  -- the record is unwrapped at the wrong cut
  set rest := e.payload ++ records (pre.length + 1) post with hrest
  have hcut : (rest.take (e.flippedLen k bit)).length = e.flippedLen k bit := by
    rw [List.length_take]
    omega
  have hunwrap : ∃ err, unwrapChecksummed (rest.take (e.flippedLen k bit)) (UInt64.ofNat pre.length) = .error err := by
    rw [unwrapChecksummed, hcut]
    by_cases hshort : e.flippedLen k bit < 5
    · exact ⟨_, if_pos hshort⟩
    rw [if_neg hshort]
    refine ⟨_, if_pos fun heq => hframe ⟨hk, ⟨by omega, hle, Nat.le_of_not_lt hwithin⟩, ?_⟩⟩
    rw [List.drop_take, List.take_take, Nat.min_eq_left (Nat.sub_le _ _), Nat.sub_sub_self (by omega)] at heq
    exact heq
  obtain ⟨err, herr⟩ := hunwrap
  refine ⟨err, ?_⟩
  simp only [Replayed.absorbRecord, if_true, herr]

theorem replayed_mutations (es : List LogEntry) :
    (replayed es).mutations = es.filterMap LogEntry.mutation? :=
  (Replayed.addAll_lists .empty 0 es).1

theorem replayed_recordsVerified (es : List LogEntry) : (replayed es).recordsVerified = es.length := by
  rw [replayed]
  simp [Replayed.empty]

/-- Replay notices every other flip. -/
theorem noticed_of_not_atRisk (hk : k < 13 + e.payload.length) (hbit : bit < 8) (hrisk : ¬AtRisk pre e post k bit) :
    ∃ err, replayWAL (damagedLog pre e post k bit) = .error err := by
  have hlen : ∀ f ∈ pre ++ e :: post, f.payload.length < 256 ^ 4 := fun f hf =>
    Nat.lt_of_not_le fun hle => hrisk (.wrapped f hf hle)
  have he : e.payload.length < 256 ^ 4 := hlen e (by simp)
  by_cases hpre : ∀ f ∈ pre, f.Fits
  swap
  · exact replayWAL_unfit (fun f hf => hlen f (by simp [hf])) hpre _
  rcases lt_or_ge k 8 with hk8 | hk8
  · exact damaged_seq hpre he hk8 hbit
  rcases lt_or_ge k 9 with hk9 | hk9
  · obtain rfl : k = 8 := by omega
    refine damaged_type hpre he hbit fun hb => ?_
    by_contra hge
    exact hrisk (.legacy ⟨⟨rfl, hb⟩, by omega⟩)
  rcases lt_or_ge k 13 with hk13 | hk13
  · exact damaged_len hpre ⟨hk9, hk13⟩ (fun h => hrisk (.pastEnd h)) fun h => hrisk (.misframed h)
  · exact damaged_payload hpre he hk13 hk hbit

/-- What is lost is lost without an error. -/
theorem Lost.not_noticed (h : Lost pre e post k bit) :
    ¬Noticed (damagedLog pre e post k bit) (fileHeader ++ records 0 (pre ++ e :: post)) := by
  obtain ⟨hfits, hloses⟩ := h
  have hintact := replayWAL_whole hfits
  rcases hloses with ⟨⟨m, rfl⟩, ⟨rfl, rfl⟩, hlong⟩ | hpast
  · -- a mutation fewer
    rintro (⟨err, herr⟩ | hsame)
    · cases (damaged_legacy hfits hlong).symm.trans herr
    · rw [damaged_legacy hfits hlong, hintact] at hsame
      have hcount := congrArg (fun rep => rep.mutations.length) (Except.ok.inj hsame)
      have hlegacy : (LogEntry.mutation m).asLegacy.mutation? = none := rfl
      have hmutation : (LogEntry.mutation m).mutation? = some m.readBack := rfl
      simp [replayed_mutations, hlegacy, hmutation] at hcount
  · -- a torn tail: fewer records than the intact log has
    have heq := damaged_pastEnd (fun f hf => hfits f (by simp [hf])) hpast
    rintro (⟨err, herr⟩ | hsame)
    · cases heq.symm.trans herr
    · rw [heq, hintact] at hsame
      have hcount := congrArg Replayed.recordsVerified (Except.ok.inj hsame)
      simp [replayed_recordsVerified] at hcount

end

/-- The damaged log is the intact file with one bit flipped. -/
theorem damagedLog_eq (pre : List LogEntry) (e : LogEntry) (post : List LogEntry) {k : ℕ}
    (hk : k < 13 + e.payload.length) (bit : ℕ) :
    flipBit (fileHeader ++ records 0 (pre ++ e :: post)) ((fileHeader ++ records 0 pre).length + k) bit
      = damagedLog pre e post k bit := by
  have hlt : k < (e.encode (UInt64.ofNat pre.length)).length := by rwa [e.encode_length]
  rw [records_append, records, Nat.zero_add, ← List.append_assoc, flipBit_append_right,
    flipBit_append_left hlt, damagedLog, List.append_assoc]

/-- **Bit rot.**  In any log the appenders wrote, flip any bit of any record.  Replay fails unless the flip is at risk:
it makes the record a legacy checkpoint, it makes the length point behind the end of the file, or the checksum happens to
match where a wrong length cuts the payload, or a length field of the log had wrapped before.  And what is lost is lost
without notice. -/
theorem bit_rot_noticed (calls : List (AppendCall × Faults)) (w₀ w : WAL)
    (hopen : openWAL [] = .ok w₀) (hrun : w₀.appendAll calls = some w)
    (pre : List LogEntry) (e : LogEntry) (post : List LogEntry)
    (hlog : WAL.entriesOf calls = pre ++ e :: post)
    (k bit : ℕ) (hk : k < (e.encode (UInt64.ofNat pre.length)).length) (hbit : bit < 8) :
    let damaged := flipBit w.file ((fileHeader ++ records 0 pre).length + k) bit
    (¬AtRisk pre e post k bit → Noticed damaged w.file) ∧ (Lost pre e post k bit → ¬Noticed damaged w.file) := by
  have hw : w.Holds ([] ++ WAL.entriesOf calls) [] := by
    cases hopen
    exact WAL.appendAll_spec WAL.holds_new hrun
  have hfile : w.file = fileHeader ++ records 0 (pre ++ e :: post) := by
    rw [hw.file, List.nil_append, hlog, List.append_nil]
  rw [e.encode_length] at hk
  rw [hfile, damagedLog_eq pre e post hk]
  exact ⟨fun hrisk => .inl (noticed_of_not_atRisk hk hbit hrisk), Lost.not_noticed⟩

theorem bit_rot_noticed_on_sample :
    ∃ w, (⟨fileHeader, 0⟩ : WAL).appendAll [(.clockAdvance 7, .none), (.clockAdvance 9, .none)] = some w ∧
      Noticed (flipBit w.file 25 3) w.file := by
  refine ⟨_, rfl, (bit_rot_noticed [(.clockAdvance 7, .none), (.clockAdvance 9, .none)]
    _ _ rfl rfl [] (.clockAdvance 7) [.clockAdvance 9] rfl 17 3 (by decide +kernel) (by decide)).1 ?_⟩
  rintro (⟨f, hf, hlen⟩ | ⟨⟨h, -⟩, -⟩ | ⟨⟨-, h⟩, -⟩ | ⟨⟨-, h⟩, -⟩)
  · have hshort : ∀ f ∈ [LogEntry.clockAdvance 7, .clockAdvance 9], f.payload.length < 256 ^ 4 := by decide +kernel
    exact absurd hlen (Nat.not_le.mpr (hshort f hf))
  · exact absurd h (by decide)
  · exact absurd h (by decide)
  · exact absurd h (by decide)

/-- One flipped bit in the type byte of the first of two records: replay succeeds, and the
acknowledged mutation is not in its result. -/
theorem flipped_type_loses_mutation :
    ∃ w rep rep', (⟨fileHeader, 0⟩ : WAL).appendAll
        [(.mutation (newWALMutation [0x61] ⟨sampleNode 1, 1⟩ (sampleEntry 1 1 0)), .none),
          (.clockAdvance 7, .none)] = some w ∧
      replayWAL w.file = .ok rep ∧ rep.mutations.length = 1 ∧
      replayWAL (flipBit w.file 16 2) = .ok rep' ∧ rep'.mutations = [] := by
  set m := newWALMutation [0x61] ⟨sampleNode 1, 1⟩ (sampleEntry 1 1 0) with hm
  have hfit : ∀ f ∈ [LogEntry.mutation m, .clockAdvance 7], f.Fits := by decide +kernel
  have hlong : 40 ≤ (LogEntry.mutation m).payload.length := by decide +kernel
  have hdamaged : replayWAL (damagedLog [] (.mutation m) [.clockAdvance 7] 8 2)
      = .ok (replayed [(LogEntry.mutation m).asLegacy, .clockAdvance 7]) := damaged_legacy hfit hlong
  rw [← damagedLog_eq [] (.mutation m) [.clockAdvance 7] (by omega) 2] at hdamaged
  obtain ⟨w, hrun⟩ := Option.isSome_iff_exists.mp (show ((⟨fileHeader, 0⟩ : WAL).appendAll
    [(.mutation m, .none), (.clockAdvance 7, .none)]).isSome = true by decide +kernel)
  have hfile : w.file = fileHeader ++ records 0 [.mutation m, .clockAdvance 7] := by
    have h := (WAL.appendAll_spec WAL.holds_new hrun).file
    rwa [List.append_nil] at h
  have hpos : (fileHeader ++ records 0 []).length + 8 = 16 := by decide
  rw [List.nil_append, ← hfile, hpos] at hdamaged
  refine ⟨w, _, _, hrun, hfile ▸ replayWAL_whole hfit, ?_, hdamaged, ?_⟩
  · rw [replayed_mutations]
    rfl
  · rw [replayed_mutations]
    rfl

end Sovereign.Wal

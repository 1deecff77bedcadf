import Sovereign.Wal.Record

/-!
# Replay of an intact log

What the appenders write, replay reads back.  `records n es` is the byte string of the entries `es`
with sequence numbers from `n` on; `replayLoop_records` says that the loop on it accumulates
`Replayed.addAll` and goes on with what follows.  `scanLoop_records` is the same for the scan at
open.

A strict beginning of one more record (`Torn`) ends both loops without an error.
-/

namespace Sovereign.Wal

open Lib Sync

/-! ### Many records -/

/-- The records of a list of entries, numbered from `n` on. -/
def records : ℕ → List LogEntry → Bytes
  | _, [] => []
  | n, e :: es => e.encode (UInt64.ofNat n) ++ records (n + 1) es

theorem records_append (n : ℕ) (es fs : List LogEntry) :
    records n (es ++ fs) = records n es ++ records (n + es.length) fs := by
  induction es generalizing n with
  | nil => rfl
  | cons e es ih =>
    rw [List.cons_append, records, ih, records, List.append_assoc, List.length_cons,
      Nat.add_right_comm, Nat.add_assoc n]

theorem length_records_ge (n : ℕ) (es : List LogEntry) : 13 * es.length ≤ (records n es).length := by
  induction es generalizing n with
  | nil => simp
  | cons e es ih =>
    have := ih (n + 1)
    rw [records, List.length_append, LogEntry.encode_length, List.length_cons]
    omega

/-- The loop is about to read record number `n`. -/
structure Expects (out : Replayed) (prevSeq : UInt64) (n : ℕ) : Prop where
  count : out.recordsVerified = n
  prev : 0 < n → prevSeq = UInt64.ofNat (n - 1)

variable {out : Replayed} {n : ℕ} {prevSeq : UInt64} {es : List LogEntry} {tail : Bytes} {e : LogEntry}
  {out' : Replayed} {payload : Bytes}

theorem Expects.seq_ok (h : Expects out prevSeq n) :
    ¬ (out.recordsVerified = 0 ∧ UInt64.ofNat n ≠ 0) ∧
      ¬ (0 < out.recordsVerified ∧ UInt64.ofNat n ≠ prevSeq + 1) := by
  rw [h.count]
  refine ⟨fun ⟨h0, hne⟩ => hne (by rw [h0]; rfl), fun ⟨hpos, hne⟩ => hne ?_⟩
  obtain ⟨k, rfl⟩ : ∃ k, n = k + 1 := ⟨n - 1, by omega⟩
  rw [h.prev hpos, Nat.add_sub_cancel, UInt64.ofNat_add]
  rfl

theorem Expects.next (h : Expects out prevSeq n) (e : LogEntry) :
    Expects ((out.count (UInt64.ofNat n)).add (UInt64.ofNat n) e) (UInt64.ofNat n) (n + 1) := by
  refine ⟨?_, fun _ => rfl⟩
  rw [Replayed.add_recordsVerified]
  exact congrArg (· + 1) h.count

section
variable (hexp : Expects out prevSeq n)
include hexp

/-- One round of the loop on a header that carries the expected sequence number. -/
theorem replayLoop_header
    {len : ℕ} (hlen : len < 256 ^ 4) (recType : UInt8) (fuel : ℕ) (rest : Bytes) :
    replayLoop (fuel + 1) (headerBytes (UInt64.ofNat n) recType len ++ rest) prevSeq out
      = if maxRecordPayloadLen < len then .error (.payloadTooLong len (UInt64.ofNat n))
        else if rest.length < len then .ok out
        else
          match (out.count (UInt64.ofNat n)).absorbRecord (UInt64.ofNat n) recType (rest.take len) with
          | .error err => .error err
          | .ok out' => replayLoop fuel (rest.drop len) (UInt64.ofNat n) out' := by
  obtain ⟨hfirst, hnext⟩ := hexp.seq_ok
  rw [replayLoop, readHeader_headerBytes hlen]
  dsimp only
  rewrite [if_neg hfirst, if_neg hnext]
  rfl

theorem replayLoop_encode (hfit : e.Fits) (fuel : ℕ) (rest : Bytes) :
    replayLoop (fuel + 1) (e.encode (UInt64.ofNat n) ++ rest) prevSeq out
      = replayLoop fuel rest (UInt64.ofNat n)
          ((out.count (UInt64.ofNat n)).add (UInt64.ofNat n) e) := by
  rw [e.encode_eq, frame_eq, List.append_assoc, replayLoop_header hexp hfit.lt,
    if_neg (Nat.not_lt.mpr hfit), if_neg (by simp), List.take_left, List.drop_left,
    Replayed.absorbRecord_payload _ _ hfit]

/-- One round of the loop on a record longer than the limit. -/
theorem replayLoop_tooLong (hlong : ¬ e.Fits) (hlt : e.payload.length < 256 ^ 4) (fuel : ℕ) (rest : Bytes) :
    replayLoop (fuel + 1) (e.encode (UInt64.ofNat n) ++ rest) prevSeq out
      = .error (.payloadTooLong e.payload.length (UInt64.ofNat n)) := by
  rw [e.encode_eq, frame_eq, List.append_assoc, replayLoop_header hexp hlt,
    if_pos (Nat.lt_of_not_le hlong)]

/-- **The replay loop on whole records** accumulates them, and goes on behind them. -/
theorem replayLoop_records (hfit : ∀ e ∈ es, e.Fits) (fuel : ℕ) (rest : Bytes) :
    ∃ prevSeq', Expects (out.addAll n es) prevSeq' (n + es.length) ∧
      replayLoop (es.length + fuel) (records n es ++ rest) prevSeq out
        = replayLoop fuel rest prevSeq' (out.addAll n es) := by
  induction es generalizing out prevSeq n with
  | nil => exact ⟨prevSeq, hexp, by simp [records, Replayed.addAll]⟩
  | cons e es ih =>
    obtain ⟨prevSeq', hexp', heq⟩ := ih (hexp.next e) fun f hf => hfit f (List.mem_cons_of_mem _ hf)
    refine ⟨prevSeq', ?_, ?_⟩
    · rwa [List.length_cons, Nat.add_comm es.length, ← Nat.add_assoc]
    · rw [List.length_cons, Nat.add_right_comm, records, List.append_assoc,
        replayLoop_encode hexp (hfit e List.mem_cons_self), heq]
      rfl

end

/-! ### Torn tails -/

/-- A strict beginning of record number `n` of some entry that fits. -/
def Torn (n : ℕ) (tail : Bytes) : Prop :=
  ∃ e : LogEntry, e.Fits ∧ tail <+: e.encode (UInt64.ofNat n) ∧
    tail.length < (e.encode (UInt64.ofNat n)).length

theorem torn_nil (n : ℕ) : Torn n [] :=
  ⟨.clockAdvance 0, LogEntry.fits_of_not_mutation (by simp), List.nil_prefix, by
    simp [LogEntry.encode_length]⟩

/-- A torn tail has no header, or a payload that ends too early. -/
theorem Torn.cases (h : Torn n tail) :
    readHeader tail = none ∨ ∃ len rest, readHeader tail
      = some (⟨UInt64.ofNat n, WALRecordType.checksummed.toByte, len⟩, rest) ∧
        len ≤ maxRecordPayloadLen ∧ rest.length < len := by
  obtain ⟨e, hfit, ⟨more, hmore⟩, hlt⟩ := h
  by_cases hshort : tail.length < 13
  · exact .inl (readHeader_short hshort)
  right
  rw [e.encode_eq, frame_eq] at hmore
  have hhead := headerBytes_length (UInt64.ofNat n) WALRecordType.checksummed.toByte e.payload.length
  -- the header is whole, so the tail is the header and a beginning of the payload
  have htail : tail = headerBytes (UInt64.ofNat n) WALRecordType.checksummed.toByte e.payload.length
      ++ tail.drop 13 := by
    have htake := congrArg (List.take 13) hmore
    rw [List.take_append_of_le_length (by omega), take_append_len hhead] at htake
    rw [← htake, List.take_append_drop]
  refine ⟨e.payload.length, tail.drop 13, ?_, hfit, ?_⟩
  · rw [htail, readHeader_headerBytes hfit.lt, drop_append_len hhead]
  · rw [e.encode_length] at hlt
    rw [List.length_drop]
    omega

theorem replayLoop_torn (hexp : Expects out prevSeq n) (h : Torn n tail) (fuel : ℕ) :
    replayLoop fuel tail prevSeq out = .ok out := by
  cases fuel with
  | zero => rfl
  | succ fuel =>
    obtain ⟨hfirst, hnext⟩ := hexp.seq_ok
    rw [replayLoop]
    rcases h.cases with hnone | ⟨len, rest, hsome, hle, hlt⟩
    · rw [hnone]
    · rw [hsome]
      simp only
      rw [if_neg (Nat.not_lt.mpr hle), if_neg hfirst, if_neg hnext, if_pos hlt]

/-! ### Whole files -/

theorem verifyHeader_fileHeader (rest : Bytes) : verifyHeader (fileHeader ++ rest) = .ok () := by
  have hlen : fileHeader.length = 8 := by decide
  have hmagic : slice (fileHeader ++ rest) 0 4 = putBE 4 0x57414C00 := by
    rw [fileHeader, List.append_assoc, slice_head (putBE_length _ _)]
  have hversion : slice (fileHeader ++ rest) 4 2 = putBE 2 1 := by
    rw [fileHeader, List.append_assoc, slice_skip (putBE_length _ _).le, putBE_length, List.append_assoc,
      slice_head (putBE_length _ _)]
  rw [verifyHeader, if_neg (by simp [hlen]), hmagic, hversion, if_neg (by decide), if_neg (by decide)]

theorem drop_fileHeader (rest : Bytes) : (fileHeader ++ rest).drop 8 = rest :=
  drop_append_len (by decide) rest

/-- Behind whole records, `ReplayWAL` is its loop. -/
theorem replayWAL_behind (hfit : ∀ e ∈ es, e.Fits) (rest : Bytes) :
    ∃ fuel prevSeq, Expects (Replayed.empty.addAll 0 es) prevSeq es.length ∧
      rest.length ≤ fuel ∧
      replayWAL (fileHeader ++ (records 0 es ++ rest))
        = (replayLoop (fuel + 1) rest prevSeq (Replayed.empty.addAll 0 es)).map
            fun out => { out with seqContiguityVerified := true } := by
  set file := fileHeader ++ (records 0 es ++ rest) with hfile
  have hge := length_records_ge 0 es
  obtain ⟨fuel, hfuel⟩ : ∃ fuel, file.length + 1 = es.length + (fuel + 1) :=
    ⟨file.length - es.length, by
      simp only [hfile, List.length_append]
      omega⟩
  have hstart : Expects .empty 0 0 := ⟨rfl, by simp⟩
  obtain ⟨prevSeq, hexp, heq⟩ := replayLoop_records hstart hfit (fuel + 1) rest
  rw [Nat.zero_add] at hexp
  refine ⟨fuel, prevSeq, hexp, ?_, ?_⟩
  · simp only [hfile, List.length_append] at hfuel
    omega
  · rw [replayWAL, hfuel, hfile, verifyHeader_fileHeader, drop_fileHeader]
    simp only [heq]
    cases replayLoop (fuel + 1) rest prevSeq (Replayed.empty.addAll 0 es) <;> rfl

/-- **`ReplayWAL`** of a header, whole records and a torn tail: exactly the records. -/
theorem replayWAL_records (hfit : ∀ e ∈ es, e.Fits) (htorn : Torn es.length tail) :
    replayWAL (fileHeader ++ (records 0 es ++ tail))
      = .ok { Replayed.empty.addAll 0 es with seqContiguityVerified := true } := by
  obtain ⟨fuel, prevSeq, hexp, -, heq⟩ := replayWAL_behind hfit tail
  rw [heq, replayLoop_torn hexp htorn]
  rfl

/-- A record longer than the limit makes replay fail, whatever follows. -/
theorem replayWAL_tooLong (hfit : ∀ e ∈ es, e.Fits)
    (hlong : ¬ e.Fits) (hlt : e.payload.length < 256 ^ 4) (rest : Bytes) :
    replayWAL (fileHeader ++ (records 0 es ++ (e.encode (UInt64.ofNat es.length) ++ rest)))
      = .error (.payloadTooLong e.payload.length (UInt64.ofNat es.length)) := by
  obtain ⟨fuel, prevSeq, hexp, -, heq⟩ := replayWAL_behind hfit (e.encode (UInt64.ofNat es.length) ++ rest)
  rw [heq, replayLoop_tooLong hexp hlong hlt]
  rfl

/-! ### The scan at open -/

/-- **The scan on whole records** counts them, and goes on behind them. -/
theorem scanLoop_records (hlen : ∀ e ∈ es, e.payload.length < 256 ^ 4)
    (n count lastGood fuel : ℕ) (rest : Bytes) :
    scanLoop (es.length + fuel) (records n es ++ rest) (UInt64.ofNat n) count lastGood
      = scanLoop fuel rest (UInt64.ofNat (n + es.length)) (count + es.length)
          (lastGood + (records n es).length) := by
  induction es generalizing n count lastGood with
  | nil => simp [records]
  | cons e es ih =>
    have hnext : (if UInt64.ofNat n ≤ UInt64.ofNat n then UInt64.ofNat n + 1 else UInt64.ofNat n)
        = UInt64.ofNat (n + 1) := by
      rw [if_pos (UInt64.le_refl _), UInt64.ofNat_add]
      rfl
    rw [List.length_cons, Nat.add_right_comm, records, List.append_assoc, e.encode_eq, frame_eq,
      List.append_assoc, scanLoop, readHeader_headerBytes (hlen e List.mem_cons_self)]
    simp only
    rw [if_neg (by simp), List.drop_left, hnext, ih fun f hf => hlen f (List.mem_cons_of_mem _ hf)]
    congr 1
    · congr 1
      omega
    · omega
    · rw [List.length_append, List.length_append, headerBytes_length]
      omega

theorem scanLoop_torn (h : Torn n tail) (fuel : ℕ) (nextSeq : UInt64) (count lastGood : ℕ) :
    scanLoop fuel tail nextSeq count lastGood = (nextSeq, count, lastGood) := by
  cases fuel with
  | zero => rfl
  | succ fuel =>
    rw [scanLoop]
    rcases h.cases with hnone | ⟨len, rest, hsome, -, hlt⟩
    · rw [hnone]
    · rw [hsome]
      simp only
      rw [if_pos hlt]

/-- **`OpenWAL`** of whole records and a torn tail drops the tail. -/
theorem openWAL_records (hlen : ∀ e ∈ es, e.payload.length < 256 ^ 4) (htorn : Torn es.length tail) :
    openWAL (fileHeader ++ (records 0 es ++ tail))
      = .ok ⟨fileHeader ++ records 0 es, UInt64.ofNat es.length⟩ := by
  have hhead : fileHeader.length = 8 := by decide
  have hge := length_records_ge 0 es
  obtain ⟨fuel, hfuel⟩ : ∃ fuel, (fileHeader ++ (records 0 es ++ tail)).length + 1
      = es.length + fuel := ⟨(fileHeader ++ (records 0 es ++ tail)).length + 1 - es.length, by
    simp only [List.length_append]
    omega⟩
  have hscan : scanRecords (fileHeader ++ (records 0 es ++ tail))
      = (UInt64.ofNat es.length, es.length, 8 + (records 0 es).length) := by
    have := scanLoop_records hlen 0 0 8 fuel tail
    rw [Nat.zero_add, scanLoop_torn htorn] at this
    rw [scanRecords, drop_fileHeader, hfuel]
    exact this
  rw [openWAL, if_neg (by simp [fileHeader, putBE]), verifyHeader_fileHeader]
  simp only [hscan]
  rw [← List.append_assoc, take_append_len]
  rw [List.length_append, hhead]

/-! ### Replayed identifiers are short -/

theorem decode_entityID_le {p : Bytes} {m : WALMutation}
    (h : decodeMutationPayload p = .ok m ∨ decodeMutationV2Payload p = .ok m) :
    m.entityID.length ≤ p.length := by
  have hslice : ∀ n, (slice p 4 n).length ≤ p.length := fun n => by
    rw [slice, List.length_take, List.length_drop]
    omega
  rcases h with h | h
  · rw [decodeMutationPayload] at h
    split at h
    · cases h
    simp only at h
    split at h
    · cases h
    · cases h
      exact hslice _
  · rw [decodeMutationV2Payload] at h
    split at h
    · cases h
    simp only at h
    split at h
    · cases h
    · cases h
      exact hslice _

theorem Replayed.absorb_entityID_le {seq : UInt64} {recType : UInt8}
    (h : out.absorb seq recType payload = .ok out') :
    ∀ m ∈ out'.mutations, m ∈ out.mutations ∨ m.entityID.length ≤ payload.length := by
  have hadd : ∀ t m, m.entityID.length ≤ payload.length → ∀ m' ∈ (out.addMutation t m seq).mutations,
      m' ∈ out.mutations ∨ m'.entityID.length ≤ payload.length := fun t m hm m' hm' => by
    rcases List.mem_append.mp hm' with hm' | hm'
    · exact .inl hm'
    · exact .inr (List.mem_singleton.mp hm' ▸ hm)
  rw [absorb] at h
  split at h
  · split at h
    · cases h
    · next heq => cases h; exact hadd _ _ (decode_entityID_le (.inl heq))
  · split at h
    · cases h
    · next heq => cases h; exact hadd _ _ (decode_entityID_le (.inr heq))
  · split at h
    · cases h
    · cases h; exact fun m hm => .inl hm
  · split at h
    · cases h
    · cases h; exact fun m hm => .inl hm
  · split at h
    · cases h
    · have hclamp : ∀ c : WALCheckpoint, (out.clampClock c).1.mutations = out.mutations := fun c => by
        rw [clampClock]
        split <;> rfl
      simp only [Except.ok.injEq] at h
      subst h
      intro m hm
      refine .inl ?_
      simp only [addCheckpoint] at hm
      by_cases h56 : 56 ≤ payload.length
      · rwa [if_pos h56, hclamp] at hm
      · rwa [if_neg h56] at hm
  · cases h
  · cases h

theorem unwrapChecksummed_length {inner : Bytes} {seq : UInt64} {t : UInt8}
    (h : unwrapChecksummed payload seq = .ok (t, inner)) : inner.length ≤ payload.length := by
  rw [unwrapChecksummed] at h
  split at h
  · cases h
  simp only at h
  split at h
  · cases h
  · cases h
    rw [List.length_tail, List.length_take]
    omega

theorem replayLoop_entityID_le {fuel : ℕ} {bs : Bytes}
    (hout : ∀ m ∈ out.mutations, m.entityID.length ≤ maxRecordPayloadLen)
    (h : replayLoop fuel bs prevSeq out = .ok out') :
    ∀ m ∈ out'.mutations, m.entityID.length ≤ maxRecordPayloadLen := by
  induction fuel generalizing bs prevSeq out with
  | zero => cases h; exact hout
  | succ fuel ih =>
    rw [replayLoop] at h
    split at h
    · cases h; exact hout
    next hd rest heq =>
    split_ifs at h with hlong hfirst hgap hshort
    · cases h; exact hout
    split at h
    · cases h
    next out₁ habsorb =>
    refine ih (fun m hm => ?_) h
    have hpay : (rest.take hd.payloadLen).length ≤ maxRecordPayloadLen := by
      rw [List.length_take]
      omega
    have hstep : m ∈ (out.count hd.seq).mutations ∨
        m.entityID.length ≤ (rest.take hd.payloadLen).length := by
      rw [Replayed.absorbRecord] at habsorb
      split at habsorb
      · split at habsorb
        · cases habsorb
        · next hun =>
          exact (Replayed.absorb_entityID_le habsorb m hm).imp_right fun hle =>
            hle.trans (unwrapChecksummed_length hun)
      · exact Replayed.absorb_entityID_le habsorb m hm
    exact hstep.elim (hout m) fun hle => hle.trans hpay

/-- Replay returns no mutation whose identifier is longer than a record may be. -/
theorem replayWAL_entityID_le {file : Bytes} {rep : Replayed} (h : replayWAL file = .ok rep) :
    ∀ m ∈ rep.mutations, m.entityID.length ≤ maxRecordPayloadLen := by
  rw [replayWAL] at h
  split at h
  · cases h
  split at h
  · cases h
  · next heq =>
    have hempty : ∀ m ∈ Replayed.empty.mutations, m.entityID.length ≤ maxRecordPayloadLen :=
      fun m hm => by cases hm
    cases h
    exact fun m hm => replayLoop_entityID_le hempty heq m hm

end Sovereign.Wal

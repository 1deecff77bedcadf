import Sovereign.Sync.Convergence
import Sovereign.Wal.Append

/-!
# The log after a crash

A crash keeps a first part of the file.  Cut anywhere behind the header, it is whole records and a
torn tail (`take_records`); `OpenWAL` drops the tail and numbers on from there, so that what is
appended later stands right behind what survived (`crash_prefix_law`).

The appenders write records that replay refuses: the length of a record is not checked on the
way in (`oversized_record_is_fatal`).
-/

namespace Sovereign.Wal

open Lib Sync

/-- The entries whose whole record lies in the first `k` bytes, numbered from `n` on. -/
def surviving : ℕ → ℕ → List LogEntry → List LogEntry
  | _, _, [] => []
  | n, k, e :: es =>
    if (e.encode (UInt64.ofNat n)).length ≤ k then
      e :: surviving (n + 1) (k - (e.encode (UInt64.ofNat n)).length) es
    else []

theorem surviving_initial (n k : ℕ) (es : List LogEntry) : surviving n k es <+: es := by
  induction es generalizing n k with
  | nil => exact List.prefix_refl _
  | cons e es ih =>
    rw [surviving]
    split
    · exact List.cons_prefix_cons.mpr ⟨rfl, ih _ _⟩
    · exact List.nil_prefix

variable {es : List LogEntry} {cut : ℕ} {w : WAL}

theorem take_records (hfit : ∀ e ∈ es, e.Fits) (n k : ℕ) :
    ∃ tail, (records n es).take k = records n (surviving n k es) ++ tail ∧
      Torn (n + (surviving n k es).length) tail := by
  induction es generalizing n k with
  | nil => exact ⟨[], by simp [records, surviving], torn_nil _⟩
  | cons e es ih =>
    rw [records, surviving]
    split
    · next hle =>
      obtain ⟨tail, heq, htorn⟩ := ih (fun f hf => hfit f (List.mem_cons_of_mem _ hf)) (n + 1)
        (k - (e.encode (UInt64.ofNat n)).length)
      refine ⟨tail, ?_, ?_⟩
      · rw [List.take_append, List.take_of_length_le hle, heq, records, List.append_assoc]
      · rwa [List.length_cons, Nat.add_comm _ 1, ← Nat.add_assoc]
    · next hgt =>
      refine ⟨(e.encode (UInt64.ofNat n)).take k, ?_, e, hfit e List.mem_cons_self,
        List.take_prefix _ _, ?_⟩
      · rw [List.take_append_of_le_length (by omega)]
        rfl
      · rw [List.length_take, List.length_nil, Nat.add_zero]
        omega

theorem prefix_surviving {n k : ℕ} {pre : List LogEntry} (h : (records n pre).length ≤ k)
    (post : List LogEntry) : pre <+: surviving n k (pre ++ post) := by
  induction pre generalizing n k with
  | nil => exact List.nil_prefix
  | cons e pre ih =>
    rw [records, List.length_append] at h
    rw [List.cons_append, surviving, if_pos (by omega)]
    exact List.cons_prefix_cons.mpr ⟨rfl, ih (by omega)⟩

/-- **A crash at any byte** behind the header leaves the surviving records and a torn tail. -/
theorem WAL.Holds.take (h : w.Holds es []) (hfit : ∀ e ∈ es, e.Fits) (hcut : 8 ≤ cut) :
    ∃ tail, w.file.take cut = fileHeader ++ (records 0 (surviving 0 (cut - 8) es) ++ tail) ∧
      Torn (surviving 0 (cut - 8) es).length tail := by
  have hhead : fileHeader.length = 8 := by decide
  obtain ⟨tail, heq, htorn⟩ := take_records hfit 0 (cut - 8)
  rw [Nat.zero_add] at htorn
  refine ⟨tail, ?_, htorn⟩
  rw [h.file, List.append_nil, List.take_append, hhead, List.take_of_length_le (by omega), heq]

theorem fits_surviving (hfit : ∀ e ∈ es, e.Fits) (n k : ℕ) :
    ∀ e ∈ surviving n k es, e.Fits := fun e he => hfit e ((surviving_initial n k es).subset he)

theorem openWAL_take (h : w.Holds es []) (hfit : ∀ e ∈ es, e.Fits) (hcut : 8 ≤ cut) :
    ∃ w', openWAL (w.file.take cut) = .ok w' ∧ w'.Holds (surviving 0 (cut - 8) es) [] := by
  obtain ⟨tail, hfile, htorn⟩ := h.take hfit hcut
  exact ⟨_, hfile ▸ openWAL_records (fun e he => (fits_surviving hfit _ _ e he).lt) htorn, by simp, rfl⟩

theorem replayWAL_take (h : w.Holds es []) (hfit : ∀ e ∈ es, e.Fits) (hcut : 8 ≤ cut) :
    replayWAL (w.file.take cut) = .ok
      { Replayed.empty.addAll 0 (surviving 0 (cut - 8) es) with seqContiguityVerified := true } := by
  obtain ⟨tail, hfile, htorn⟩ := h.take hfit hcut
  rw [hfile]
  exact replayWAL_records (fits_surviving hfit _ _) htorn

/-- **The crash-prefix law.**  Any successful appends to a new log, a cut at any byte behind the file
header, any successful appends to the reopened log: replay returns exactly the records that survived
whole and the new ones, in order, numbered from zero; mutations as they were appended; the last
checkpoint as it was stored, a clock beyond the credible maximum excepted.  All records are within
the length limit of replay, and mutations carry the legacy view of their own entry. -/
theorem crash_prefix_law (calls more : List (AppendCall × Faults)) (w₀ w : WAL) (cut : ℕ)
    (hopen : openWAL [] = .ok w₀) (hrun : w₀.appendAll calls = some w) (hcut : 8 ≤ cut)
    (hfit : ∀ e ∈ WAL.entriesOf calls ++ WAL.entriesOf more, e.Fits)
    (hview : ∀ m, LogEntry.mutation m ∈ WAL.entriesOf calls ++ WAL.entriesOf more →
      m.entry = .ofFull m.full) :
    ∃ w₁, openWAL (w.file.take cut) = .ok w₁ ∧
      ∀ w₂, w₁.appendAll more = some w₂ →
        let log := surviving 0 (cut - 8) (WAL.entriesOf calls) ++ WAL.entriesOf more
        ∃ rep, replayWAL w₂.file = .ok rep ∧
          rep.mutations = log.filterMap LogEntry.mutation? ∧
          (∀ m, LogEntry.mutation m ∈ log → m.readBack = m) ∧
          rep.advances = log.filterMap LogEntry.advance? ∧
          rep.ordered = orderedFrom 0 log ∧
          rep.recordsVerified = log.length ∧ rep.nextSeq = UInt64.ofNat log.length ∧
          (match lastCheckpoint 0 log with
            | some (i, c) => rep.IsCheckpoint i c
            | none => rep.hasCheckpoint = false) := by
  have hnew : w₀.Holds [] [] := by
    cases hopen
    exact WAL.holds_new
  have hw := WAL.appendAll_spec hnew hrun
  rw [List.nil_append] at hw
  obtain ⟨w₁, hopen₁, hw₁⟩ := openWAL_take hw (fun e he => hfit e (List.mem_append_left _ he)) hcut
  refine ⟨w₁, hopen₁, fun w₂ hmore => ?_⟩
  intro log
  have hw₂ := WAL.appendAll_spec hw₁ hmore
  have hsub : ∀ e ∈ log, e ∈ WAL.entriesOf calls ++ WAL.entriesOf more := fun e he =>
    List.mem_append.mpr ((List.mem_append.mp he).imp_left
      fun h => (surviving_initial _ _ _).subset h)
  have hlegacy : ∀ m, LogEntry.mutation m ∈ log → m.legacy = false := fun m hm => by
    rcases List.mem_append.mp (hsub _ hm) with h | h
    · exact (WAL.validateV2_ok (WAL.appendAll_valid hrun m h)).2.1
    · exact (WAL.validateV2_ok (WAL.appendAll_valid hmore m h)).2.1
  obtain ⟨hmut, hadv, hord⟩ := Replayed.empty.addAll_lists 0 log
  have hzero : Replayed.empty.nextSeq = UInt64.ofNat 0 := rfl
  have hnext := Replayed.addAll_nextSeq hzero log
  rw [Nat.zero_add] at hnext
  refine ⟨_, hw₂.replay fun e he => hfit e (hsub e he), hmut, fun m hm => ?_, hadv, hord, ?_, hnext, ?_⟩
  · rw [WALMutation.readBack, ← hview m (hsub _ hm), ← hlegacy m hm]
  · exact (Replayed.empty.addAll_recordsVerified 0 log).trans (Nat.zero_add _)
  · have hck := Replayed.empty.addAll_checkpoint 0 log
    split
    · next i c hlast =>
      rw [hlast] at hck
      exact hck
    · next hlast =>
      rw [hlast] at hck
      exact hck.1

theorem crash_prefix_law_on_sample :
    ∃ w₀ w w₁ w₂ rep, openWAL [] = .ok w₀ ∧
      w₀.appendAll [(.clockAdvance 7, .none), (.clockAdvance 9, .none)] = some w ∧
      openWAL (w.file.take 39) = .ok w₁ ∧ w₁.appendAll [(.clockAdvance 11, .none)] = some w₂ ∧
      replayWAL w₂.file = .ok rep ∧ rep.advances = [7, 11] := by
  have hfit : ∀ e ∈ WAL.entriesOf [(.clockAdvance 7, .none), (.clockAdvance 9, .none)]
      ++ WAL.entriesOf [(.clockAdvance 11, .none)], e.Fits := by decide
  obtain ⟨w₁, hopen₁, hrest⟩ := crash_prefix_law
    [(.clockAdvance 7, .none), (.clockAdvance 9, .none)] [(.clockAdvance 11, .none)] _ _ 39 rfl rfl
    (by decide) hfit (by simp [WAL.entriesOf, AppendCall.entries])
  obtain ⟨rep, hrep, -, -, hadv, -⟩ := hrest _ rfl
  exact ⟨_, _, w₁, _, rep, rfl, rfl, hopen₁, rfl, hrep, hadv.trans (by decide)⟩

/-- A mutation whose record is longer than replay allows. -/
def oversizedMutation : WALMutation :=
  newWALMutation (List.replicate 4194304 0) ⟨sampleNode 1, 1⟩ (sampleEntry 1 1 0)

theorem oversizedMutation_valid : validateV2 oversizedMutation = .ok () := by
  refine WAL.validateV2_newWALMutation _ (fun h => ?_) (by decide)
  have := congrArg List.length h
  rw [List.length_replicate] at this
  cases this

theorem oversizedMutation_length :
    (LogEntry.mutation oversizedMutation).payload.length = 4194457 := by
  have hid : oversizedMutation.entityID.length = 4194304 := List.length_replicate
  rw [LogEntry.payload_length_mutation, hid]

/-- A checkpoint with a Merkle root. -/
def rootedCheckpoint : WALCheckpoint := { WALCheckpoint.zero with merkleRoot := .copyFrom 32 [1] }

/-- Without a crash and without any further append, replay refuses an acknowledged record.  And by design it
returns of two checkpoints the last: logs that differ in the first one are replayed alike. -/
theorem oversized_record_is_fatal :
    (∃ w₀ w, openWAL [] = .ok w₀ ∧
      w₀.appendAll [(.mutation oversizedMutation, .none)] = some w ∧
      openWAL (w.file.take w.file.length) = .ok w ∧ 8 ≤ w.file.length ∧
      replayWAL w.file = .error (.payloadTooLong 4194457 0)) ∧
    ∃ w₀ w w' rep, openWAL [] = .ok w₀ ∧
      w₀.appendAll [(.checkpoint .zero, .none), (.checkpoint .zero, .none)] = some w ∧
      w₀.appendAll [(.checkpoint rootedCheckpoint, .none), (.checkpoint .zero, .none)] = some w' ∧
      WALCheckpoint.zero ≠ rootedCheckpoint ∧ replayWAL w.file = .ok rep ∧ replayWAL w'.file = .ok rep := by
  have happend : WAL.append ⟨fileHeader, 0⟩ (.mutation oversizedMutation) .none
      = (⟨fileHeader ++ (LogEntry.mutation oversizedMutation).encode 0, 0 + 1⟩, .ok ()) := by
    rw [WAL.append, WAL.appendMutation, oversizedMutation_valid]
    rfl
  refine ⟨⟨⟨fileHeader, 0⟩, ⟨fileHeader ++ (LogEntry.mutation oversizedMutation).encode 0, 0 + 1⟩, rfl,
    ?_, ?_, ?_, ?_⟩, _, _, _, { Replayed.empty with
      hasCheckpoint := true
      nextSeq := 2
      finalCheckptSeq := 1
      legacyCheckpoint := true
      seqContiguityVerified := true
      recordsVerified := 2 }, rfl, rfl, rfl, by decide, by decide +kernel, by decide +kernel⟩
  · rw [WAL.appendAll, happend]
    rfl
  · have hlen : ∀ e ∈ [LogEntry.mutation oversizedMutation], e.payload.length < 256 ^ 4 := by
      simp only [List.mem_singleton, forall_eq, oversizedMutation_length]
      decide
    have hopen := openWAL_records hlen (torn_nil _)
    rw [List.take_length]
    simpa [records] using hopen
  · have hhead : fileHeader.length = 8 := by decide
    rw [List.length_append, hhead]
    omega
  · have hnone : ∀ e ∈ ([] : List LogEntry), e.Fits := by simp
    have hlong : ¬ (LogEntry.mutation oversizedMutation).Fits := by
      rw [LogEntry.Fits, oversizedMutation_length]
      decide
    have hreplay := replayWAL_tooLong hnone hlong (by rw [oversizedMutation_length]; decide) []
    rw [oversizedMutation_length] at hreplay
    simpa [records] using hreplay

end Sovereign.Wal

import Sovereign.Lib.Run
import Sovereign.Wal.Append

/-!
# Failed appends

Runs of append calls in which any write may fail with a first part of its record in the file.  The
appenders neither take such bytes back nor stop: the next record is written behind them, and
then replay cannot find it (`append_behind_torn_bytes_is_lost`).  As long as no call is made behind the
bytes of a failed write, and records are within the length limit of replay, every acknowledged
append is returned by replay (`acknowledged_appends_are_replayed`).
-/

namespace Sovereign.Wal

open Lib Sync

/-- A log, and whether bytes of a failed write are at its end. -/
structure LogRun where
  wal : WAL
  torn : Bool
deriving DecidableEq

def numbered (nextSeq : UInt64) (es : List LogEntry) : List (UInt64 × LogEntry) :=
  es.zipIdx.map fun p => (nextSeq + UInt64.ofNat p.2, p.1)

namespace LogRun

/-- One call; it logs what it acknowledged. -/
def step (s : LogRun) (c : AppendCall × Faults) : Option (LogRun × List (UInt64 × LogEntry)) :=
  some (⟨(s.wal.append c.1 c.2).1, s.torn || s.wal.leavesBytes c.1 c.2⟩,
    match (s.wal.append c.1 c.2).2 with
    | .ok () => numbered s.wal.nextSeq c.1.entries
    | .error _ => [])

/-- The call is not made behind the bytes of a failed write, and its records fit. -/
def Guarded (s : LogRun) (c : AppendCall × Faults) : Prop :=
  s.torn = false ∧ ∀ e ∈ c.1.entries, e.Fits

instance (s : LogRun) (c : AppendCall × Faults) : Decidable (s.Guarded c) :=
  inferInstanceAs (Decidable (_ ∧ _))

/-- The invariant of guarded runs: the acknowledged entries are in the log, at their numbers. -/
structure Keeps (s : LogRun) (acked : List (UInt64 × LogEntry)) : Prop where
  log : ∃ es leftover, s.wal.Holds es leftover ∧ (∀ e ∈ es, e.Fits) ∧
    (s.torn = false → leftover = []) ∧
    (leftover = [] ∨ ∃ e : LogEntry, e.Fits ∧ leftover <+: e.encode (UInt64.ofNat es.length)) ∧
    ∀ p ∈ acked, ∃ i, p.1 = UInt64.ofNat i ∧ es[i]? = some p.2

theorem mem_numbered {n : ℕ} {es fs : List LogEntry} (hn : es.length = n)
    {p : UInt64 × LogEntry} (h : p ∈ numbered (UInt64.ofNat n) fs) :
    ∃ i, p.1 = UInt64.ofNat i ∧ (es ++ fs)[i]? = some p.2 := by
  obtain ⟨⟨e, j⟩, hmem, rfl⟩ := List.mem_map.mp h
  have hget := List.mem_zipIdx_iff_getElem?.mp hmem
  refine ⟨n + j, (UInt64.ofNat_add n j).symm, ?_⟩
  rw [List.getElem?_append_right (by omega), hn, Nat.add_sub_cancel_left]
  exact hget

/-- **One guarded call** keeps the invariant. -/
theorem Keeps.step {s s' : LogRun} {acked out : List (UInt64 × LogEntry)} (h : s.Keeps acked)
    {c : AppendCall × Faults} (hguard : s.Guarded c) (hstep : s.step c = some (s', out)) :
    s'.Keeps (acked ++ out) := by
  obtain ⟨call, f⟩ := c
  obtain ⟨es, leftover, hholds, hfit, hclean, -, hacked⟩ := h.log
  obtain rfl : leftover = [] := hclean hguard.1
  cases hstep
  obtain ⟨done, leftover, hpre, hholds', hall, htorn, hleft⟩ :=
    (WAL.append_spec hholds call f).grown
  refine ⟨es ++ done, leftover, hholds', fun e he => ?_, fun hno => htorn ?_, ?_, fun p hp => ?_⟩
  · rcases List.mem_append.mp he with he | he
    · exact hfit e he
    · exact hguard.2 e (hpre.subset he)
  · exact (Bool.or_eq_false_iff.mp hno).2
  · exact hleft.imp_right fun ⟨e, he, hp⟩ => ⟨e, hguard.2 e he, hp⟩
  · rcases List.mem_append.mp hp with hp | hp
    · obtain ⟨i, hi, hget⟩ := hacked p hp
      have hlt : i < es.length := (List.getElem?_eq_some_iff.mp hget).1
      exact ⟨i, hi, by rw [List.getElem?_append_left hlt]; exact hget⟩
    · simp only at hp
      split at hp
      · next hres =>
        have hok : (s.wal.append call f).2.isOk = true := by rw [hres]; rfl
        rw [hholds.nextSeq] at hp
        rw [(hall hok).1]
        exact mem_numbered rfl hp
      · cases hp

/-- Replay of a guarded run's file is the replay of a log that has all acknowledged entries. -/
theorem Keeps.replay {s : LogRun} {acked : List (UInt64 × LogEntry)} (h : s.Keeps acked) :
    ∃ log, replayWAL s.wal.file
        = .ok { Replayed.empty.addAll 0 log with seqContiguityVerified := true } ∧
      ∀ p ∈ acked, ∃ i, p.1 = UInt64.ofNat i ∧ log[i]? = some p.2 := by
  obtain ⟨es, leftover, hholds, hfit, -, hleft, hacked⟩ := h.log
  rcases hleft with rfl | ⟨e, he, hpre⟩
  · exact ⟨es, hholds.replay hfit, hacked⟩
  by_cases hlt : leftover.length < (e.encode (UInt64.ofNat es.length)).length
  · exact ⟨es, hholds.file ▸ replayWAL_records hfit ⟨e, he, hpre, hlt⟩, hacked⟩
  · -- the failed write left its whole record: replay reads that one too
    have hwhole : leftover = e.encode (UInt64.ofNat es.length) :=
      hpre.eq_of_length_le (Nat.le_of_not_lt hlt)
    refine ⟨es ++ [e], ?_, fun p hp => ?_⟩
    · have hfit' : ∀ f ∈ es ++ [e], f.Fits := fun f hf => by
        rcases List.mem_append.mp hf with hf | hf
        · exact hfit f hf
        · exact List.mem_singleton.mp hf ▸ he
      have hreplay := replayWAL_records hfit' (torn_nil _)
      rw [hholds.file, hwhole]
      simpa [records_append, records] using hreplay
    · obtain ⟨i, hi, hget⟩ := hacked p hp
      have hlt : i < es.length := (List.getElem?_eq_some_iff.mp hget).1
      exact ⟨i, hi, by rw [List.getElem?_append_left hlt]; exact hget⟩

end LogRun

/-! ### What it means to be returned -/

/-- Replay returns record `i`: a mutation or clock advance in its lists, a checkpoint as the final
one, or superseded by a later one. -/
def Replayed.Returns (rep : Replayed) (i : ℕ) : LogEntry → Prop
  | .mutation m =>
    .mutation .mutationV2 m.readBack (UInt64.ofNat i) ∈ rep.ordered ∧ m.readBack ∈ rep.mutations
  | .clockAdvance v => .clockAdvance v (UInt64.ofNat i) ∈ rep.ordered ∧ v ∈ rep.advances
  | .checkpoint c => ∃ j c', i ≤ j ∧ rep.IsCheckpoint j c' ∧ (j = i → c' = c)

theorem lastCheckpoint_ge {n i : ℕ} {c : WALCheckpoint} {es : List LogEntry}
    (h : es[i]? = some (.checkpoint c)) :
    ∃ j c', lastCheckpoint n es = some (j, c') ∧ n + i ≤ j := by
  induction es generalizing n i with
  | nil => simp at h
  | cons e es ih =>
    rw [lastCheckpoint]
    cases i with
    | succ i =>
      obtain ⟨j, c', hlast, hle⟩ := ih (n := n + 1) (by simpa using h)
      exact ⟨j, c', by rw [hlast], by omega⟩
    | zero =>
      obtain rfl : e = .checkpoint c := by simpa using h
      cases hlast : lastCheckpoint (n + 1) es with
      | none => exact ⟨n, c, rfl, le_refl _⟩
      | some r =>
        have := (lastCheckpoint_mem hlast).1
        exact ⟨r.1, r.2, rfl, by omega⟩

theorem mem_orderedFrom {log : List LogEntry} {i : ℕ} {e : LogEntry} (h : log[i]? = some e)
    {r : WALRecord} (hr : e.toRecord (UInt64.ofNat i) = some r) : r ∈ orderedFrom 0 log :=
  List.mem_filterMap.mpr ⟨(e, i), List.mem_zipIdx_iff_getElem?.mpr h, hr⟩

/-- Every record of a log is returned. -/
theorem Replayed.returns_addAll {log : List LogEntry} {i : ℕ} {e : LogEntry} (h : log[i]? = some e)
    (verified : Bool) :
    ({ Replayed.empty.addAll 0 log with seqContiguityVerified := verified } : Replayed).Returns i e := by
  obtain ⟨hmut, hadv, hord⟩ := Replayed.empty.addAll_lists 0 log
  have hmem : e ∈ log := List.mem_of_getElem? h
  cases e with
  | mutation m =>
    simp only [Returns, hord, hmut]
    exact ⟨List.mem_append_right _ (mem_orderedFrom h rfl),
      List.mem_append_right _ (List.mem_filterMap.mpr ⟨_, hmem, rfl⟩)⟩
  | clockAdvance v =>
    simp only [Returns, hord, hadv]
    exact ⟨List.mem_append_right _ (mem_orderedFrom h rfl),
      List.mem_append_right _ (List.mem_filterMap.mpr ⟨_, hmem, rfl⟩)⟩
  | checkpoint c =>
    obtain ⟨j, c', hlast, hle⟩ := lastCheckpoint_ge (n := 0) h
    have hck := Replayed.empty.addAll_checkpoint 0 log
    rw [hlast] at hck
    refine ⟨j, c', by omega, hck, fun hj => ?_⟩
    have hget := (lastCheckpoint_mem hlast).2
    rw [Nat.sub_zero, hj, h] at hget
    exact (LogEntry.checkpoint.inj (Option.some.inj hget)).symm

/-- **Acknowledged appends survive failed ones.**  In every run in which no append is made behind the
bytes of a failed write and all records are within the length limit of replay, replay of the file
returns every append that was acknowledged, under the sequence number it was given. -/
theorem acknowledged_appends_are_replayed (calls : List (AppendCall × Faults)) (s : LogRun)
    (acked : List (UInt64 × LogEntry))
    (hrun : run LogRun.step ⟨⟨fileHeader, 0⟩, false⟩ calls = some (s, acked))
    (hguard : Meets LogRun.step LogRun.Guarded ⟨⟨fileHeader, 0⟩, false⟩ calls) :
    ∃ rep, replayWAL s.wal.file = .ok rep ∧
      ∀ p ∈ acked, ∃ i, p.1 = UInt64.ofNat i ∧ rep.Returns i p.2 := by
  have hnew : LogRun.Keeps ⟨⟨fileHeader, 0⟩, false⟩ [] :=
    ⟨[], [], WAL.holds_new, by simp, fun _ => rfl, .inl rfl, by simp⟩
  have hkeeps := run_invariant (fun _ _ _ _ _ h hG hs => LogRun.Keeps.step h hG hs) hnew hguard hrun
  obtain ⟨log, hreplay, hacked⟩ := hkeeps.replay
  refine ⟨_, hreplay, fun p hp => ?_⟩
  obtain ⟨i, hi, hget⟩ := hacked p hp
  exact ⟨i, hi, Replayed.returns_addAll hget _⟩

/-- A failed write that leaves nothing, an append, and a last one that is torn. -/
def sampleAppends : List (AppendCall × Faults) :=
  [(.clockAdvance 3, ⟨fun _ => .fails 0, true⟩), (.clockAdvance 5, .none),
    (.clockAdvance 8, ⟨fun _ => .fails 17, true⟩)]

theorem acknowledged_appends_are_replayed_on_sample :
    ∃ s rep, run LogRun.step ⟨⟨fileHeader, 0⟩, false⟩ sampleAppends = some (s, [(0, .clockAdvance 5)]) ∧
      replayWAL s.wal.file = .ok rep ∧ ∃ i, 0 = UInt64.ofNat i ∧ rep.Returns i (.clockAdvance 5) := by
  obtain ⟨rep, hrep, hall⟩ := acknowledged_appends_are_replayed sampleAppends _
    [(0, .clockAdvance 5)] rfl (by decide +kernel)
  exact ⟨_, rep, rfl, hrep, hall _ (List.mem_singleton_self _)⟩

/-- Five bytes of a failed write, and then an append that is acknowledged: replay fails. -/
theorem append_behind_torn_bytes_is_lost :
    ∃ s, run LogRun.step ⟨⟨fileHeader, 0⟩, false⟩
        [(.clockAdvance 7, ⟨fun _ => .fails 5, true⟩), (.clockAdvance 9, .none)]
          = some (s, [(0, .clockAdvance 9)]) ∧
      replayWAL s.wal.file = .error (.unknownType 0 0) :=
  ⟨_, rfl, by decide +kernel⟩

end Sovereign.Wal

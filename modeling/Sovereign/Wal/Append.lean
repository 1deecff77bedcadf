import Sovereign.Wal.Replay

/-!
# Runs of the appenders

Every append call, with the faults of its writes and of its flush.  `WAL.Holds w es leftover` says
what the file of a log is: the header, the records of `es` numbered from zero, and what a
failed write has left behind.  A call on a log without leftovers appends a first part of its entries,
all of them if it succeeds (`append_spec`).

The second half says what the result of replay contains, in terms of the entries
it was accumulated from.
-/

namespace Sovereign.Wal

open Lib Sync

/-- A call of one of the four appenders. -/
inductive AppendCall where
  | mutation (m : WALMutation)
  | mutations (ms : List WALMutation)
  | checkpoint (c : WALCheckpoint)
  | clockAdvance (advancedTo : UInt64)

def AppendCall.entries : AppendCall → List LogEntry
  | .mutation m => [.mutation m]
  | .mutations ms => ms.map .mutation
  | .checkpoint c => [.checkpoint c]
  | .clockAdvance v => [.clockAdvance v]

/-- How the writes of a call end, by their index, and whether its flush succeeds. -/
structure Faults where
  write : ℕ → WriteOutcome
  synced : Bool

def Faults.none : Faults := ⟨fun _ => .ok, true⟩

namespace WAL

def append (w : WAL) : AppendCall → Faults → WAL × Except AppendError Unit
  | .mutation m, f => w.appendMutation m (f.write 0) f.synced
  | .mutations ms, f => w.appendMutations ms f.write f.synced
  | .checkpoint c, f => w.appendCheckpoint c (f.write 0) f.synced
  | .clockAdvance v, f => w.appendClockAdvance v (f.write 0) f.synced

/-- A failed write left bytes in the file. -/
def leavesBytes (w : WAL) : AppendCall → Faults → Bool
  | .mutations ms, f =>
    match (w.appendMutationsLoop 0 ms f.write).2 with
    | .error (i, .write) => 0 < (f.write i).persisted
    | _ => false
  | call, f =>
    match (w.append call f).2 with
    | .error .write => 0 < (f.write 0).persisted
    | _ => false

/-- The log of the entries `es`, with what a failed write left behind. -/
structure Holds (w : WAL) (es : List LogEntry) (leftover : Bytes) : Prop where
  file : w.file = fileHeader ++ (records 0 es ++ leftover)
  nextSeq : w.nextSeq = UInt64.ofNat es.length

/-- The log after a call: some of the call's entries, and perhaps a part of the next one. -/
structure Grew (w : WAL) (es todo : List LogEntry) (ok torn : Bool) : Prop where
  grown : ∃ done leftover, done <+: todo ∧ w.Holds (es ++ done) leftover ∧
    (ok = true → done = todo ∧ leftover = []) ∧ (torn = false → leftover = []) ∧
    (leftover = [] ∨ ∃ e ∈ todo, leftover <+: e.encode (UInt64.ofNat (es ++ done).length))

theorem holds_new : Holds ⟨fileHeader, 0⟩ [] [] := ⟨by simp [records], rfl⟩

variable {w : WAL} {es : List LogEntry}
  {todo : List LogEntry} {call : AppendCall} {w' : WAL} {calls : List (AppendCall × Faults)}

theorem Holds.write_ok (h : w.Holds es []) (e : LogEntry) :
    (⟨w.file ++ e.encode w.nextSeq, w.nextSeq + 1⟩ : WAL).Holds (es ++ [e]) [] := by
  constructor
  · rw [h.file, h.nextSeq, records_append]
    simp [records]
  · rw [h.nextSeq, List.length_append, List.length_singleton, UInt64.ofNat_add]
    rfl

theorem Holds.write_fails (h : w.Holds es []) (e : LogEntry) (persisted : ℕ) :
    ({ w with file := w.file ++ (e.encode w.nextSeq).take persisted } : WAL).Holds es
      ((e.encode (UInt64.ofNat es.length)).take persisted) := by
  refine ⟨?_, h.nextSeq⟩
  rw [h.file, h.nextSeq]
  simp

theorem Grew.unchanged (h : w.Holds es []) (todo : List LogEntry) (torn : Bool) :
    w.Grew es todo false torn :=
  ⟨[], [], List.nil_prefix, (List.append_nil es).symm ▸ h, fun hok => (by cases hok), fun _ => rfl,
    .inl rfl⟩

theorem Grew.done (h : w.Holds (es ++ todo) []) (ok torn : Bool) : w.Grew es todo ok torn :=
  ⟨todo, [], List.prefix_refl _, h, fun _ => ⟨rfl, rfl⟩, fun _ => rfl, .inl rfl⟩

theorem Grew.torn (h : w.Holds es []) {e : LogEntry} (he : e ∈ todo) (persisted : ℕ) :
    ({ w with file := w.file ++ (e.encode w.nextSeq).take persisted } : WAL).Grew es todo false
      (0 < persisted) := by
  refine ⟨[], _, List.nil_prefix, (List.append_nil es).symm ▸ h.write_fails e persisted,
    fun hok => (by cases hok), fun htorn => ?_, .inr ⟨e, he, ?_⟩⟩
  · have hzero : persisted = 0 := by simpa using htorn
    rw [hzero, List.take_zero]
  · rw [List.append_nil]
    exact List.take_prefix _ _

theorem writeSync_spec (h : w.Holds es []) (e : LogEntry) (outcome : WriteOutcome) (synced : Bool) :
    (w.writeSync e outcome synced).1.Grew es [e] (w.writeSync e outcome synced).2.isOk
      (match (w.writeSync e outcome synced).2 with
        | .error .write => 0 < outcome.persisted
        | _ => false) := by
  cases outcome with
  | ok => exact Grew.done (h.write_ok e) _ _
  | fails persisted => exact Grew.torn h (List.mem_singleton_self e) persisted

theorem appendMutationsLoop_spec (h : w.Holds es []) (i : ℕ) (ms : List WALMutation)
    (outcome : ℕ → WriteOutcome) :
    (w.appendMutationsLoop i ms outcome).1.Grew es (ms.map .mutation)
      (w.appendMutationsLoop i ms outcome).2.isOk
      (match (w.appendMutationsLoop i ms outcome).2 with
        | .error (i, .write) => 0 < (outcome i).persisted
        | _ => false) := by
  induction ms generalizing w es i with
  | nil =>
    have hnil : w.Holds (es ++ []) [] := (List.append_nil es).symm ▸ h
    exact Grew.done hnil _ _
  | cons m ms ih =>
    rw [appendMutationsLoop]
    split
    · exact Grew.unchanged h _ _
    · cases houtcome : outcome i with
      | fails persisted =>
        simp only [write, houtcome]
        exact Grew.torn h List.mem_cons_self persisted
      | ok =>
        -- the rest of the loop runs on the log with one more record
        obtain ⟨done, leftover, hpre, hholds, hall, htorn, hleft⟩ :=
          (ih (h.write_ok (.mutation m)) (i + 1)).grown
        rw [List.append_assoc, List.singleton_append] at hholds hleft
        refine ⟨.mutation m :: done, leftover, ?_, hholds, fun hok => ?_, htorn, ?_⟩
        · rw [List.map_cons]
          exact List.cons_prefix_cons.mpr ⟨rfl, hpre⟩
        · rw [List.map_cons, (hall hok).1]
          exact ⟨rfl, (hall hok).2⟩
        · exact hleft.imp_right fun ⟨e, he, hp⟩ => ⟨e, List.mem_cons_of_mem _ he, hp⟩

/-- **One call** on a log without leftovers. -/
theorem append_spec (h : w.Holds es []) (call : AppendCall) (f : Faults) :
    (w.append call f).1.Grew es call.entries (w.append call f).2.isOk (w.leavesBytes call f) := by
  cases call with
  | checkpoint c => exact writeSync_spec h _ _ _
  | clockAdvance v => exact writeSync_spec h _ _ _
  | mutation m =>
    simp only [leavesBytes, append, appendMutation]
    split
    · exact Grew.unchanged h _ _
    · exact writeSync_spec h _ _ _
  | mutations ms =>
    have hloop := appendMutationsLoop_spec h 0 ms f.write
    simp only [leavesBytes, append, appendMutations]
    split
    · next w' i err heq =>
      rw [heq] at hloop
      simp only [heq]
      exact hloop
    · next w' heq =>
      rw [heq] at hloop
      obtain ⟨done, leftover, hpre, hholds, hall, -, hleft⟩ := hloop.grown
      obtain ⟨hdone, hnil⟩ := hall rfl
      exact ⟨done, leftover, hpre, hholds, fun _ => ⟨hdone, hnil⟩, fun _ => hnil, hleft⟩

theorem append_ok (h : w.Holds es []) {f : Faults}
    (hok : w.append call f = (w', .ok ())) : w'.Holds (es ++ call.entries) [] := by
  have hspec := append_spec h call f
  rw [hok] at hspec
  obtain ⟨done, leftover, -, hholds, hall, -⟩ := hspec.grown
  rw [(hall rfl).1, (hall rfl).2] at hholds
  exact hholds

theorem validateV2_ok {m : WALMutation} (h : validateV2 m = .ok ()) :
    m.entityID ≠ [] ∧ m.legacy = false ∧ m.full.dotNodeID = m.nodeID ∧
      m.full.dotCounter = m.counter ∧ m.full.originNodeID ≠ .zero 16 := by
  rw [validateV2] at h
  split_ifs at h with h1 h2 h3 h4
  push Not at h3
  exact ⟨h1, by simpa using h2, h3.1, h3.2, h4⟩

theorem validateV2_newWALMutation {id : EntityID} {dot : CausalDot} (entry : CRDTEntry)
    (hid : id ≠ []) (hnode : dot.nodeID ≠ .zero 16) :
    validateV2 (newWALMutation id dot entry) = .ok () := by
  simp [validateV2, newWALMutation, hid, hnode]

theorem appendMutationsLoop_ok {i : ℕ} {ms : List WALMutation} {outcome : ℕ → WriteOutcome}
    (hok : (w.appendMutationsLoop i ms outcome).2 = .ok ()) : ∀ m ∈ ms, validateV2 m = .ok () := by
  induction ms generalizing w i with
  | nil => simp
  | cons m ms ih =>
    rw [appendMutationsLoop] at hok
    split at hok
    · cases hok
    · next hvalid =>
      split at hok
      · cases hok
      · intro m' hm'
        rcases List.mem_cons.mp hm' with rfl | hm'
        · exact hvalid
        · exact ih hok m' hm'

theorem append_ok_valid {f : Faults} (hok : w.append call f = (w', .ok ())) :
    ∀ m, LogEntry.mutation m ∈ call.entries → validateV2 m = .ok () := by
  intro m hm
  cases call with
  | checkpoint c => simp [AppendCall.entries] at hm
  | clockAdvance v => simp [AppendCall.entries] at hm
  | mutation m' =>
    simp only [AppendCall.entries, List.mem_singleton, LogEntry.mutation.injEq] at hm
    subst hm
    simp only [append, appendMutation] at hok
    split at hok
    · cases hok
    · assumption
  | mutations ms =>
    simp only [AppendCall.entries, List.mem_map, LogEntry.mutation.injEq, exists_eq_right] at hm
    simp only [append, appendMutations] at hok
    split at hok
    · cases hok
    · next heq => exact appendMutationsLoop_ok (congrArg Prod.snd heq) m hm

/-- Execute calls as long as they succeed. -/
def appendAll : WAL → List (AppendCall × Faults) → Option WAL
  | w, [] => some w
  | w, (call, f) :: calls =>
    match w.append call f with
    | (w', .ok ()) => w'.appendAll calls
    | (_, .error _) => none

def entriesOf (calls : List (AppendCall × Faults)) : List LogEntry :=
  calls.flatMap fun c => c.1.entries

theorem appendAll_spec (h : w.Holds es [])
    (hall : w.appendAll calls = some w') : w'.Holds (es ++ entriesOf calls) [] := by
  induction calls generalizing w es with
  | nil =>
    cases hall
    simpa [entriesOf] using h
  | cons c calls ih =>
    obtain ⟨call, f⟩ := c
    rw [appendAll] at hall
    split at hall
    · next w₁ hok =>
      have := ih (append_ok h hok) hall
      simpa [entriesOf] using this
    · cases hall

theorem appendAll_valid (hall : w.appendAll calls = some w') :
    ∀ m, LogEntry.mutation m ∈ entriesOf calls → validateV2 m = .ok () := by
  induction calls generalizing w with
  | nil => simp [entriesOf]
  | cons c calls ih =>
    obtain ⟨call, f⟩ := c
    rw [appendAll] at hall
    split at hall
    · next w₁ hok =>
      intro m hm
      rcases List.mem_append.mp (by simpa [entriesOf] using hm :
        LogEntry.mutation m ∈ call.entries ++ entriesOf calls) with hm | hm
      · exact append_ok_valid hok m hm
      · exact ih hall m hm
    · cases hall

theorem Holds.replay (h : w.Holds es []) (hfit : ∀ e ∈ es, e.Fits) :
    replayWAL w.file = .ok { Replayed.empty.addAll 0 es with seqContiguityVerified := true } := by
  rw [h.file]
  exact replayWAL_records hfit (torn_nil _)

end WAL

end Sovereign.Wal

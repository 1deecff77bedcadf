import Sovereign.Lib.Run
import Sovereign.Sync.Engine

/-!
# The Lamport clock under concurrency

`NextDot` and `AdvanceLamportTo` of `pkg/sync/crdt.go`, one atomic operation at a time, for any number of
goroutines, with the background worker that writes the reserved watermark to disk.

* `NextDot` adds one to the clock, and if the new counter is above the saved watermark it moves the
  watermark to `counter + 1000` by a compare-and-swap loop and hands that value to the worker.
* `AdvanceLamportTo` raises the clock by a compare-and-swap loop and then the watermark to
  `remoteCounter + 1000` by a second one.  `Join` observes the counters of its delta by such calls, one
  after the other.
* The hand-over is a send on an unbuffered channel that does not wait: if the worker is not parked at
  its receive, the value is dropped.  The worker writes one value at a time.
* `Close` comes when no call is in flight; it waits for the worker and then writes the larger of the
  watermark and the value in the file.

Without interference the steps of a call are `Engine.nextDot` and `Engine.advanceLamportTo`
(`run_nextDot`, `run_advanceLamportTo`).

The clock is advanced by an addition on one path and by a maximum on the other; both only raise it
(`minted_dots_unique_and_ahead`).
-/

namespace Sovereign.Sync

open Lib

/-- What is seen of a run: a `NextDot` began, it returned a counter, a remote counter was observed. -/
inductive ClockEvent (n : ℕ) where
  | began (w : Fin n)
  | returned (w : Fin n) (counter : UInt64)
  | observed (remoteCounter : UInt64)
deriving DecidableEq

/-- A goroutine in `NextDot` (the first five) or `AdvanceLamportTo`, before its next atomic operation.
`comparing`, `raising` and `extending` have what the loop has loaded; `handing` and `announcing` are
before the send. -/
inductive ClockCall where
  | idle
  | minting
  | minted (counter : UInt64)
  | reserving (counter : UInt64)
  | comparing (counter lastSaved : UInt64)
  | handing (counter : UInt64)
  | advancing (remoteCounter : UInt64)
  | raising (remoteCounter current : UInt64)
  | covering (remoteCounter : UInt64)
  | extending (remoteCounter lastSaved : UInt64)
  | announcing (remoteCounter : UInt64)
deriving DecidableEq

/-- `persistWorkerLoop`: on the way to its receive, parked there, or in `persistLamport`. -/
inductive PersistWorker where
  | away
  | parked
  | writing (val : UInt64)
deriving DecidableEq

/-- A non-blocking send: only a parked worker takes the value. -/
def PersistWorker.offer (worker : PersistWorker) (val : UInt64) : PersistWorker :=
  if worker = .parked then .writing val else worker

/-- The clock, its watermark, the worker, the value in the file (0 if there is none), and the calls. -/
structure LamportClock (n : ℕ) where
  lamportCounter : UInt64
  lastSavedCounter : UInt64
  worker : PersistWorker
  disk : UInt64
  calls : Fin n → ClockCall

/-- A new call, the next operation of a call, the two steps of the worker, or `Close`. -/
inductive ClockStep (n : ℕ) where
  | nextDot (w : Fin n)
  | advanceLamportTo (w : Fin n) (remoteCounter : UInt64)
  | go (w : Fin n)
  | park
  | persist
  | close

namespace LamportClock

variable {n : ℕ}

/-- The clock of a new engine: the constructor takes the larger of its argument and the file. -/
def boot (n : ℕ) (initialCounter disk : UInt64) : LamportClock n where
  lamportCounter := max initialCounter disk
  lastSavedCounter := max initialCounter disk
  worker := .away
  disk := disk
  calls := fun _ => .idle

def goto (s : LamportClock n) (w : Fin n) (c : ClockCall) : LamportClock n :=
  { s with calls := Function.update s.calls w c }

def goStep (s : LamportClock n) (w : Fin n) : Option (LamportClock n × List (ClockEvent n)) :=
  match s.calls w with
  | .idle => none
  | .minting =>
    some ({ s with lamportCounter := s.lamportCounter + 1 }.goto w (.minted (s.lamportCounter + 1)), [])
  | .minted counter =>
    if counter ≤ s.lastSavedCounter then some (s.goto w .idle, [.returned w counter])
    else some (s.goto w (.reserving counter), [])
  | .reserving counter =>
    if counter + 1000 ≤ s.lastSavedCounter then some (s.goto w .idle, [.returned w counter])
    else some (s.goto w (.comparing counter s.lastSavedCounter), [])
  | .comparing counter lastSaved =>
    if s.lastSavedCounter = lastSaved then
      some ({ s with lastSavedCounter := counter + 1000 }.goto w (.handing counter), [])
    else some (s.goto w (.reserving counter), [])
  | .handing counter =>
    some ({ s with worker := s.worker.offer (counter + 1000) }.goto w .idle, [.returned w counter])
  | .advancing remoteCounter =>
    if remoteCounter ≤ s.lamportCounter then some (s.goto w .idle, [.observed remoteCounter])
    else some (s.goto w (.raising remoteCounter s.lamportCounter), [])
  | .raising remoteCounter current =>
    if s.lamportCounter = current then
      some ({ s with lamportCounter := remoteCounter }.goto w (.covering remoteCounter), [])
    else some (s.goto w (.advancing remoteCounter), [])
  | .covering remoteCounter =>
    if remoteCounter ≤ s.lastSavedCounter then some (s.goto w .idle, [.observed remoteCounter])
    else some (s.goto w (.extending remoteCounter s.lastSavedCounter), [])
  | .extending remoteCounter lastSaved =>
    if s.lastSavedCounter = lastSaved then
      some ({ s with lastSavedCounter := remoteCounter + 1000 }.goto w (.announcing remoteCounter), [])
    else some (s.goto w (.covering remoteCounter), [])
  | .announcing remoteCounter =>
    some ({ s with worker := s.worker.offer (remoteCounter + 1000) }.goto w .idle, [.observed remoteCounter])

def step (s : LamportClock n) : ClockStep n → Option (LamportClock n × List (ClockEvent n))
  | .nextDot w =>
    match s.calls w with
    | .idle => some (s.goto w .minting, [.began w])
    | _ => none
  | .advanceLamportTo w remoteCounter =>
    match s.calls w with
    | .idle => some (s.goto w (.advancing remoteCounter), [])
    | _ => none
  | .go w => s.goStep w
  | .park =>
    match s.worker with
    | .away => some ({ s with worker := .parked }, [])
    | _ => none
  | .persist =>
    match s.worker with
    | .writing val => some ({ s with worker := .away, disk := val }, [])
    | _ => none
  | .close =>
    match s.worker with
    | .writing _ => none
    | _ =>
      if ∀ w, s.calls w = .idle then some ({ s with disk := max s.lastSavedCounter s.disk }, [])
      else none

@[simp] theorem goto_calls_self (s : LamportClock n) (w : Fin n) (c : ClockCall) : (s.goto w c).calls w = c :=
  Function.update_self ..

/-! ### A call without interference -/

def ofEngine (n : ℕ) (e : Engine) (worker : PersistWorker) (disk : UInt64) : LamportClock n :=
  ⟨e.lamportCounter, e.lastSavedCounter, worker, disk, fun _ => .idle⟩

variable {s s' : LamportClock n} {w : Fin n} {log out : List (ClockEvent n)}

/-- **`NextDot` without interference.** -/
theorem run_nextDot (e : Engine) (worker : PersistWorker) (disk : UInt64) (w : Fin n) :
    ∃ k worker', run step (ofEngine n e worker disk) (.nextDot w :: List.replicate k (.go w))
      = some (ofEngine n e.nextDot.2 worker' disk, [.began w, .returned w e.nextDot.1.counter]) := by
  set c := e.lamportCounter + 1 with hc
  by_cases hcovered : c ≤ e.lastSavedCounter
  · refine ⟨2, worker, ?_⟩
    simp [run, step, goStep, goto, ofEngine, Engine.nextDot, ← hc, hcovered]
  by_cases hreserved : c + 1000 ≤ e.lastSavedCounter
  · refine ⟨3, worker, ?_⟩
    simp [run, step, goStep, goto, ofEngine, Engine.nextDot, ← hc, hcovered, hreserved]
  · refine ⟨5, worker.offer (c + 1000), ?_⟩
    simp [run, step, goStep, goto, ofEngine, Engine.nextDot, ← hc, hcovered, hreserved]

/-- **`AdvanceLamportTo` without interference.** -/
theorem run_advanceLamportTo (R : Runtime) (e : Engine) (worker : PersistWorker) (disk : UInt64) (w : Fin n)
    (remoteCounter : UInt64) :
    ∃ k worker', run step (ofEngine n e worker disk)
        (.advanceLamportTo w remoteCounter :: List.replicate k (.go w))
      = some (ofEngine n (e.advanceLamportTo R remoteCounter) worker' disk, [.observed remoteCounter]) := by
  by_cases hbehind : remoteCounter ≤ e.lamportCounter
  · refine ⟨1, worker, ?_⟩
    simp [run, step, goStep, goto, ofEngine, Engine.advanceLamportTo, hbehind]
  by_cases hreached : remoteCounter ≤ e.lastSavedCounter
  · refine ⟨3, worker, ?_⟩
    simp [run, step, goStep, goto, ofEngine, Engine.advanceLamportTo, hbehind, hreached]
  · refine ⟨5, worker.offer (remoteCounter + 1000), ?_⟩
    simp [run, step, goStep, goto, ofEngine, Engine.advanceLamportTo, hbehind, hreached]

/-! ### What an operation can do -/

/-- The operations of a call, with what each does. -/
inductive Go (s : LamportClock n) (w : Fin n) : LamportClock n → List (ClockEvent n) → Prop
  | add (hw : s.calls w = .minting) :
      Go s w ({ s with lamportCounter := s.lamportCounter + 1 }.goto w (.minted (s.lamportCounter + 1))) []
  | covered {c : UInt64} (hw : s.calls w = .minted c) (hle : c ≤ s.lastSavedCounter) :
      Go s w (s.goto w .idle) [.returned w c]
  | uncovered {c : UInt64} (hw : s.calls w = .minted c) : Go s w (s.goto w (.reserving c)) []
  | reserved {c : UInt64} (hw : s.calls w = .reserving c) (hle : c + 1000 ≤ s.lastSavedCounter) :
      Go s w (s.goto w .idle) [.returned w c]
  | loadReserved {c : UInt64} (hw : s.calls w = .reserving c) (hlt : ¬ c + 1000 ≤ s.lastSavedCounter) :
      Go s w (s.goto w (.comparing c s.lastSavedCounter)) []
  | reserve {c : UInt64} (hw : s.calls w = .comparing c s.lastSavedCounter) :
      Go s w ({ s with lastSavedCounter := c + 1000 }.goto w (.handing c)) []
  | reserveLost {c l : UInt64} (hw : s.calls w = .comparing c l) : Go s w (s.goto w (.reserving c)) []
  | hand {c : UInt64} (hw : s.calls w = .handing c) :
      Go s w ({ s with worker := s.worker.offer (c + 1000) }.goto w .idle) [.returned w c]
  | behind {r : UInt64} (hw : s.calls w = .advancing r) (hle : r ≤ s.lamportCounter) :
      Go s w (s.goto w .idle) [.observed r]
  | loadClock {r : UInt64} (hw : s.calls w = .advancing r) (hlt : ¬ r ≤ s.lamportCounter) :
      Go s w (s.goto w (.raising r s.lamportCounter)) []
  | raise {r : UInt64} (hw : s.calls w = .raising r s.lamportCounter) :
      Go s w ({ s with lamportCounter := r }.goto w (.covering r)) []
  | raiseLost {r c : UInt64} (hw : s.calls w = .raising r c) : Go s w (s.goto w (.advancing r)) []
  | reached {r : UInt64} (hw : s.calls w = .covering r) (hle : r ≤ s.lastSavedCounter) :
      Go s w (s.goto w .idle) [.observed r]
  | loadCovered {r : UInt64} (hw : s.calls w = .covering r) (hlt : ¬ r ≤ s.lastSavedCounter) :
      Go s w (s.goto w (.extending r s.lastSavedCounter)) []
  | extend {r : UInt64} (hw : s.calls w = .extending r s.lastSavedCounter) :
      Go s w ({ s with lastSavedCounter := r + 1000 }.goto w (.announcing r)) []
  | extendLost {r l : UInt64} (hw : s.calls w = .extending r l) : Go s w (s.goto w (.covering r)) []
  | announce {r : UInt64} (hw : s.calls w = .announcing r) :
      Go s w ({ s with worker := s.worker.offer (r + 1000) }.goto w .idle) [.observed r]

theorem go_of_goStep (h : s.goStep w = some (s', out)) : Go s w s' out := by
  rw [goStep] at h
  cases hw : s.calls w with
  | idle => rw [hw] at h; cases h
  | minting =>
    rw [hw] at h
    cases h
    exact .add hw
  | minted c =>
    rw [hw] at h
    dsimp only at h
    split at h
    · next hle => cases h; exact .covered hw hle
    · cases h; exact .uncovered hw
  | reserving c =>
    rw [hw] at h
    dsimp only at h
    split at h
    · next hle => cases h; exact .reserved hw hle
    · next hlt => cases h; exact .loadReserved hw hlt
  | comparing c l =>
    rw [hw] at h
    dsimp only at h
    split at h
    · next heq => cases h; subst heq; exact .reserve hw
    · cases h; exact .reserveLost hw
  | handing c =>
    rw [hw] at h
    cases h
    exact .hand hw
  | advancing r =>
    rw [hw] at h
    dsimp only at h
    split at h
    · next hle => cases h; exact .behind hw hle
    · next hlt => cases h; exact .loadClock hw hlt
  | raising r c =>
    rw [hw] at h
    dsimp only at h
    split at h
    · next heq => cases h; subst heq; exact .raise hw
    · cases h; exact .raiseLost hw
  | covering r =>
    rw [hw] at h
    dsimp only at h
    split at h
    · next hle => cases h; exact .reached hw hle
    · next hlt => cases h; exact .loadCovered hw hlt
  | extending r l =>
    rw [hw] at h
    dsimp only at h
    split at h
    · next heq => cases h; subst heq; exact .extend hw
    · cases h; exact .extendLost hw
  | announcing r =>
    rw [hw] at h
    cases h
    exact .announce hw

/-- The steps that are not operations of a call. -/
inductive Other (s : LamportClock n) : ClockStep n → LamportClock n → List (ClockEvent n) → Prop
  | nextDot {w : Fin n} (hw : s.calls w = .idle) : Other s (.nextDot w) (s.goto w .minting) [.began w]
  | advance {w : Fin n} {r : UInt64} (hw : s.calls w = .idle) :
      Other s (.advanceLamportTo w r) (s.goto w (.advancing r)) []
  | park (hw : s.worker = .away) : Other s .park { s with worker := .parked } []
  | persist {val : UInt64} (hw : s.worker = .writing val) :
      Other s .persist { s with worker := .away, disk := val } []
  | close (hw : ∀ val, s.worker ≠ .writing val) (hidle : ∀ w, s.calls w = .idle) :
      Other s .close { s with disk := max s.lastSavedCounter s.disk } []

/-- **What a step can do.** -/
theorem step_cases {a : ClockStep n} (h : s.step a = some (s', out)) :
    (∃ w, a = .go w ∧ Go s w s' out) ∨ Other s a s' out := by
  cases a with
  | nextDot w =>
    right
    simp only [step] at h
    cases hw : s.calls w with
    | idle =>
      rw [hw] at h
      cases h
      exact .nextDot hw
    | _ => rw [hw] at h; cases h
  | advanceLamportTo w r =>
    right
    simp only [step] at h
    cases hw : s.calls w with
    | idle =>
      rw [hw] at h
      cases h
      exact .advance hw
    | _ => rw [hw] at h; cases h
  | go w => exact .inl ⟨w, rfl, go_of_goStep h⟩
  | park =>
    right
    simp only [step] at h
    cases hw : s.worker with
    | away =>
      rw [hw] at h
      cases h
      exact .park hw
    | _ => rw [hw] at h; cases h
  | persist =>
    right
    simp only [step] at h
    cases hw : s.worker with
    | writing val =>
      rw [hw] at h
      cases h
      exact .persist hw
    | _ => rw [hw] at h; cases h
  | close =>
    right
    simp only [step] at h
    split at h
    · cases h
    · next hw =>
      split at h
      · next hidle =>
        cases h
        exact .close hw hidle
      · cases h

/-! ### Minted counters -/

end LamportClock

/-- The counter of a call that has ended. -/
def ClockEvent.counter? {n : ℕ} : ClockEvent n → Option UInt64
  | .began _ => none
  | .returned _ counter => some counter
  | .observed remoteCounter => some remoteCounter

def ClockEvent.minted? {n : ℕ} : ClockEvent n → Option UInt64
  | .returned _ counter => some counter
  | _ => none

theorem ClockEvent.eq_returned {n : ℕ} {ev : ClockEvent n} {m : UInt64} (h : ev.minted? = some m) :
    ∃ w, ev = .returned w m := by
  cases ev with
  | returned w c =>
    cases h
    exact ⟨w, rfl⟩
  | began w => cases h
  | observed r => cases h

namespace ClockCall

/-- The counter a `NextDot` has minted and not returned. -/
def minted? : ClockCall → Option UInt64
  | .minted counter | .reserving counter | .comparing counter _ | .handing counter => some counter
  | _ => none

/-- The remote counter an `AdvanceLamportTo` has raised the clock to. -/
def raised? : ClockCall → Option UInt64
  | .covering remoteCounter | .extending remoteCounter _ | .announcing remoteCounter => some remoteCounter
  | _ => none

end ClockCall

namespace LamportClock

variable {n : ℕ} {s s' : LamportClock n} {w : Fin n} {log out : List (ClockEvent n)}
  {a : ClockStep n} {ev : ClockEvent n} {c : ClockCall}

/-- A counter is above all that ended before the last `NextDot` of a goroutine began. -/
def AheadOf (log : List (ClockEvent n)) (w : Fin n) (c : UInt64) : Prop :=
  ∀ before between, log = before ++ .began w :: between → .began w ∉ between →
    ∀ ev ∈ before, ∀ v, ev.counter? = some v → v < c

/-- The order of the clock over a run. -/
structure Ordered (s : LamportClock n) (log : List (ClockEvent n)) : Prop where
  ended : ∀ ev ∈ log, ∀ v, ev.counter? = some v → v ≤ s.lamportCounter
  inFlight : ∀ w c, (s.calls w).minted? = some c →
    c ≤ s.lamportCounter ∧ (∀ v, .returned v c ∉ log) ∧ AheadOf log w c
  raised : ∀ w r, (s.calls w).raised? = some r → r ≤ s.lamportCounter
  raising : ∀ w r c, s.calls w = .raising r c → c < r
  distinct : ∀ w v c, (s.calls w).minted? = some c → (s.calls v).minted? = some c → w = v
  nodup : (log.filterMap ClockEvent.minted?).Nodup
  ahead : ∀ w c before after, log = before ++ .returned w c :: after → AheadOf before w c

theorem eq_append_singleton_cases {α : Type*} {l before rest : List α} {x a : α}
    (h : l ++ [x] = before ++ a :: rest) :
    (rest = [] ∧ x = a ∧ before = l) ∨ ∃ rest', rest = rest' ++ [x] ∧ l = before ++ a :: rest' := by
  rcases List.eq_nil_or_concat rest with rfl | ⟨rest', y, rfl⟩
  · obtain ⟨hl, hx⟩ := List.append_inj' h rfl
    exact .inl ⟨rfl, List.singleton_inj.mp hx, hl.symm⟩
  · rw [List.concat_eq_append, ← List.cons_append, ← List.append_assoc] at h
    obtain ⟨hl, hx⟩ := List.append_inj' h rfl
    rw [List.singleton_inj] at hx
    subst hx
    exact .inr ⟨rest', by simp, hl⟩

/-- An event that does not begin a call of `w` leaves what was before its last call. -/
theorem AheadOf.snoc {c : UInt64} (h : AheadOf log w c) (hev : ev ≠ .began w) : AheadOf (log ++ [ev]) w c := by
  intro before between hlog hbetween
  rcases eq_append_singleton_cases hlog with ⟨-, heq, -⟩ | ⟨between', rfl, hlog'⟩
  · exact absurd heq hev
  · exact h before between' hlog' fun hmem => hbetween (List.mem_append_left _ hmem)

theorem lt_add_one {c : UInt64} (h : c.toNat + 1 < 2 ^ 64) : c < c + 1 := by
  rw [UInt64.lt_iff_toNat_lt, UInt64.toNat_add]
  simp only [UInt64.reduceToNat]
  omega

theorem forall_goto {P : Fin n → ClockCall → Prop} (hw : P w c) (h : ∀ v, P v (s.calls v)) (v : Fin n) :
    P v (Function.update s.calls w c v) :=
  (Function.forall_update_iff s.calls P).mpr ⟨hw, fun v _ => h v⟩ v

namespace Ordered

theorem move (h : s.Ordered log) {a b : UInt64} {p : PersistWorker} {d : UInt64}
    (hclock : s.lamportCounter ≤ a) (hminted : ∀ m, c.minted? = some m → (s.calls w).minted? = some m)
    (hraised : ∀ r, c.raised? = some r → r ≤ a := by intro r hr; cases hr)
    (hraising : ∀ r c', c = .raising r c' → c' < r := by intro r c' hr; cases hr) :
    Ordered ⟨a, b, p, d, Function.update s.calls w c⟩ (log ++ []) := by
  have hold : ∀ v m, (Function.update s.calls w c v).minted? = some m → (s.calls v).minted? = some m :=
    forall_goto (P := fun v c => ∀ m, c.minted? = some m → (s.calls v).minted? = some m) hminted fun _ _ hm => hm
  rw [List.append_nil]
  refine
    { ended := fun ev hev v hv => UInt64.le_trans (h.ended ev hev v hv) hclock
      inFlight := fun v m hm => ?_
      raised := forall_goto (P := fun _ c => ∀ r, c.raised? = some r → r ≤ a) hraised fun v r hr =>
        UInt64.le_trans (h.raised v r hr) hclock
      raising := forall_goto (P := fun _ c => ∀ r c', c = .raising r c' → c' < r) hraising h.raising
      distinct := fun v u m hv hu => h.distinct v u m (hold v m hv) (hold u m hu)
      nodup := h.nodup
      ahead := h.ahead }
  obtain ⟨hle, hnew, hahead⟩ := h.inFlight v m (hold v m hm)
  exact ⟨UInt64.le_trans hle hclock, hnew, hahead⟩

theorem snoc (h : s.Ordered log) (hended : ∀ v, ev.counter? = some v → v ≤ s.lamportCounter)
    (hbegan : ∀ v, ev = .began v → (s.calls v).minted? = none)
    (hreturned : ∀ v m, ev = .returned v m → (∀ u, .returned u m ∉ log) ∧ AheadOf log v m ∧
      ∀ u, (s.calls u).minted? ≠ some m) : s.Ordered (log ++ [ev]) where
  ended := by
    intro ev' hev' v hv
    rcases List.mem_append.mp hev' with hev' | hev'
    · exact h.ended ev' hev' v hv
    · rw [List.mem_singleton.mp hev'] at hv
      exact hended v hv
  inFlight := by
    intro v m hm
    obtain ⟨hle, hnew, hahead⟩ := h.inFlight v m hm
    refine ⟨hle, fun u hmem => ?_, hahead.snoc fun heq => ?_⟩
    · rcases List.mem_append.mp hmem with hmem | hmem
      · exact hnew u hmem
      · exact (hreturned u m (List.mem_singleton.mp hmem).symm).2.2 v hm
    · rw [hbegan v heq] at hm
      cases hm
  raised := h.raised
  raising := h.raising
  distinct := h.distinct
  nodup := by
    rw [List.filterMap_append, List.nodup_append']
    refine ⟨h.nodup, ?_, ?_⟩
    · rw [List.filterMap_cons, List.filterMap_nil]
      cases ev.minted? with
      | none => exact List.nodup_nil
      | some m => exact List.nodup_singleton m
    · intro m hm hm'
      obtain ⟨ev', hev', hm⟩ := List.mem_filterMap.mp hm
      obtain ⟨ev'', hev'', hm'⟩ := List.mem_filterMap.mp hm'
      rw [List.mem_singleton] at hev''
      obtain ⟨v, rfl⟩ := ClockEvent.eq_returned (hev'' ▸ hm')
      obtain ⟨u, rfl⟩ := ClockEvent.eq_returned hm
      exact (hreturned v m rfl).1 u hev'
  ahead := by
    intro v c before after hlog
    rcases eq_append_singleton_cases hlog with ⟨-, heq, rfl⟩ | ⟨after', -, hlog'⟩
    · exact (hreturned v c heq).2.1
    · exact h.ahead v c before after' hlog'

theorem add (h : s.Ordered log) (hmax : s.lamportCounter < s.lamportCounter + 1) :
    Ordered ({ s with lamportCounter := s.lamportCounter + 1 }.goto w (.minted (s.lamportCounter + 1))) (log ++ []) := by
  have hle := UInt64.le_of_lt hmax
  -- everything that ended, and every counter in flight, is at most the old clock
  have hbelow : ∀ v, v ≤ s.lamportCounter → v < s.lamportCounter + 1 := fun v hv =>
    UInt64.lt_of_le_of_lt hv hmax
  have hcalls : ∀ v m, (Function.update s.calls w (.minted (s.lamportCounter + 1)) v).minted? = some m →
      v = w ∧ m = s.lamportCounter + 1 ∨ v ≠ w ∧ (s.calls v).minted? = some m := by
    intro v m hm
    by_cases hv : v = w
    · rw [hv, Function.update_self] at hm
      exact .inl ⟨hv, (Option.some.inj hm).symm⟩
    · rw [Function.update_of_ne hv] at hm
      exact .inr ⟨hv, hm⟩
  rw [List.append_nil]
  refine
    { ended := fun ev hev v hv => UInt64.le_trans (h.ended ev hev v hv) hle
      inFlight := fun v m hm => ?_
      raised := forall_goto (P := fun _ c => ∀ r, c.raised? = some r → r ≤ s.lamportCounter + 1) (by intro r hr; cases hr)
        fun v r hr => UInt64.le_trans (h.raised v r hr) hle
      raising := forall_goto (P := fun _ c => ∀ r c', c = .raising r c' → c' < r) (by intro r c' hr; cases hr) h.raising
      distinct := fun v u m hv hu => ?_
      nodup := h.nodup
      ahead := h.ahead }
  · rcases hcalls v m hm with ⟨rfl, rfl⟩ | ⟨-, hold⟩
    · refine ⟨UInt64.le_refl _, fun u hmem => ?_, fun before between hlog _ ev hev u hu => ?_⟩
      · have := hbelow _ (h.ended _ hmem _ rfl)
        exact absurd this (UInt64.lt_irrefl _)
      · refine hbelow u (h.ended ev ?_ u hu)
        rw [hlog]
        exact List.mem_append_left _ hev
    · obtain ⟨hm, hnew, hahead⟩ := h.inFlight v m hold
      exact ⟨UInt64.le_trans hm hle, hnew, hahead⟩
  · rcases hcalls v m hv with ⟨hvw, hm⟩ | ⟨hvw, hv⟩ <;> rcases hcalls u m hu with ⟨huw, hm'⟩ | ⟨huw, hu⟩
    · rw [hvw, huw]
    · have := hbelow m (h.inFlight u m hu).1
      rw [hm] at this
      exact absurd this (UInt64.lt_irrefl _)
    · have := hbelow m (h.inFlight v m hv).1
      rw [hm'] at this
      exact absurd this (UInt64.lt_irrefl _)
    · exact h.distinct v u m hv hu

theorem leave (h : s.Ordered log) (w : Fin n) (p : PersistWorker) :
    Ordered ({ s with worker := p }.goto w .idle) log := by
  have hmoved : Ordered ({ s with worker := p }.goto w .idle) (log ++ []) :=
    h.move (UInt64.le_refl _) (by intro m hm; cases hm)
  rwa [List.append_nil] at hmoved

theorem returned (h : s.Ordered log) {m : UInt64} (hm : (s.calls w).minted? = some m) (p : PersistWorker) :
    Ordered ({ s with worker := p }.goto w .idle) (log ++ [.returned w m]) := by
  obtain ⟨hle, hnew, hahead⟩ := h.inFlight w m hm
  refine (h.leave w p).snoc (fun v hv => ?_) (fun v hv => ?_) fun v m' hev => ?_
  · cases hv
    exact hle
  · cases hv
  · cases hev
    refine ⟨hnew, hahead, fun u hu => ?_⟩
    replace hu : (Function.update s.calls w .idle u).minted? = some m := hu
    by_cases huw : u = w
    · rw [huw, Function.update_self] at hu
      cases hu
    · rw [Function.update_of_ne huw] at hu
      exact huw (h.distinct u w m hu hm)

theorem observed (h : s.Ordered log) {r : UInt64} (hr : r ≤ s.lamportCounter) (w : Fin n) (p : PersistWorker) :
    Ordered ({ s with worker := p }.goto w .idle) (log ++ [.observed r]) := by
  refine (h.leave w p).snoc (fun v hv => ?_) (fun v hv => ?_) fun v m' hev => ?_
  · cases hv
    exact hr
  · cases hv
  · cases hev

theorem loop (h : s.Ordered log) (b : UInt64) (hminted : c.minted? = (s.calls w).minted?)
    (hraised : c.raised? = (s.calls w).raised?)
    (hraising : ∀ r c', c = .raising r c' → c' < r := by intro r c' hr; cases hr) :
    Ordered ({ s with lastSavedCounter := b }.goto w c) (log ++ []) :=
  h.move (UInt64.le_refl _) (fun _ hm => hminted ▸ hm) (fun r hr => h.raised w r (hraised ▸ hr)) hraising

/-- **Every operation of a call keeps the order.** -/
theorem go (h : s.Ordered log) (hmax : s.calls w = .minting → s.lamportCounter < s.lamportCounter + 1)
    (hgo : Go s w s' out) : s'.Ordered (log ++ out) := by
  cases hgo with
  | add hw => exact h.add (hmax hw)
  | covered hw hle => exact h.returned (by rw [hw]; rfl) s.worker
  | uncovered hw => exact h.loop s.lastSavedCounter (by rw [hw]; rfl) (by rw [hw]; rfl)
  | reserved hw hle => exact h.returned (by rw [hw]; rfl) s.worker
  | loadReserved hw hlt => exact h.loop s.lastSavedCounter (by rw [hw]; rfl) (by rw [hw]; rfl)
  | reserve hw => exact h.loop _ (by rw [hw]; rfl) (by rw [hw]; rfl)
  | reserveLost hw => exact h.loop s.lastSavedCounter (by rw [hw]; rfl) (by rw [hw]; rfl)
  | hand hw => exact h.returned (by rw [hw]; rfl) _
  | behind hw hle => exact h.observed hle w s.worker
  | loadClock hw hlt =>
    refine h.loop s.lastSavedCounter (by rw [hw]; rfl) (by rw [hw]; rfl) ?_
    intro r c' hr
    cases hr
    exact UInt64.not_le.mp hlt
  | raise hw =>
    have hlt := h.raising w _ _ hw
    refine h.move (UInt64.le_of_lt hlt) (by intro m hm; cases hm) ?_
    intro r hr
    cases hr
    exact UInt64.le_refl _
  | raiseLost hw => exact h.loop s.lastSavedCounter (by rw [hw]; rfl) (by rw [hw]; rfl)
  | reached hw hle => exact h.observed (h.raised w _ (by rw [hw]; rfl)) w s.worker
  | loadCovered hw hlt => exact h.loop s.lastSavedCounter (by rw [hw]; rfl) (by rw [hw]; rfl)
  | extend hw => exact h.loop _ (by rw [hw]; rfl) (by rw [hw]; rfl)
  | extendLost hw => exact h.loop s.lastSavedCounter (by rw [hw]; rfl) (by rw [hw]; rfl)
  | announce hw => exact h.observed (h.raised w _ (by rw [hw]; rfl)) w _

theorem other (h : s.Ordered log) (hother : Other s a s' out) : s'.Ordered (log ++ out) := by
  cases hother with
  | @nextDot w hw =>
    have hmoved : Ordered (s.goto w .minting) (log ++ []) := h.move (UInt64.le_refl _) (by intro m hm; cases hm)
    rw [List.append_nil] at hmoved
    refine hmoved.snoc (fun v hv => ?_) (fun v hv => ?_) fun v _ hev => ?_
    · cases hv
    · cases hv
      rw [goto_calls_self]
      rfl
    · cases hev
  | advance hw => exact h.loop s.lastSavedCounter (by rw [hw]; rfl) (by rw [hw]; rfl)
  | park hw =>
    rw [List.append_nil]
    exact ⟨h.ended, h.inFlight, h.raised, h.raising, h.distinct, h.nodup, h.ahead⟩
  | persist hw =>
    rw [List.append_nil]
    exact ⟨h.ended, h.inFlight, h.raised, h.raising, h.distinct, h.nodup, h.ahead⟩
  | close hw hidle =>
    rw [List.append_nil]
    exact ⟨h.ended, h.inFlight, h.raised, h.raising, h.distinct, h.nodup, h.ahead⟩

theorem step (h : s.Ordered log)
    (hmax : ∀ w, a = .go w → s.calls w = .minting → s.lamportCounter < s.lamportCounter + 1)
    (hstep : s.step a = some (s', out)) : s'.Ordered (log ++ out) := by
  rcases step_cases hstep with ⟨w, hw, hgo⟩ | hother
  · exact h.go (hmax w hw) hgo
  · exact h.other hother

/-- With no call in flight and nothing logged there is nothing to order. -/
theorem of_idle (hidle : ∀ w, s.calls w = .idle) : s.Ordered [] where
  ended := by
    intro ev hev
    cases hev
  inFlight := by
    intro w c hc
    rw [hidle w] at hc
    cases hc
  raised := by
    intro w r hr
    rw [hidle w] at hr
    cases hr
  raising := by
    intro w r c hr
    rw [hidle w] at hr
    cases hr
  distinct := by
    intro w v c hc
    rw [hidle w] at hc
    cases hc
  nodup := List.nodup_nil
  ahead := by
    intro w c before after hlog
    exact absurd hlog.symm (List.append_ne_nil_of_right_ne_nil before (List.cons_ne_nil _ _))

end Ordered

/-- **Minted dots are unique and causally ahead.**  Over every interleaving of the atomic operations of
any number of `NextDot` and `AdvanceLamportTo` calls in which the clock stays below `2 ^ 64 - 2000`: no
two `NextDot` calls return one counter, and a returned counter is strictly above every counter whose
`NextDot` or `AdvanceLamportTo` was over when the call began. -/
theorem minted_dots_unique_and_ahead (n : ℕ) (start : LamportClock n) (hidle : ∀ w, start.calls w = .idle)
    (steps : List (ClockStep n)) (s : LamportClock n) (log : List (ClockEvent n))
    (hrun : run step start steps = some (s, log))
    (hbelow : Meets step (fun s _ => s.lamportCounter.toNat < 2 ^ 64 - 2000) start steps) :
    (log.filterMap ClockEvent.minted?).Nodup ∧
      ∀ w before between c after, log = before ++ .began w :: between ++ .returned w c :: after →
        .began w ∉ between → ∀ ev ∈ before, ∀ v, ev.counter? = some v → v < c := by
  have hordered := run_invariant (P := Ordered) (fun s log a s' out h hlt hstep => ?_)
    (Ordered.of_idle hidle) hbelow hrun
  · refine ⟨hordered.nodup, fun w before between c after hlog hbetween => ?_⟩
    exact hordered.ahead w c _ after (by rw [List.nil_append]; exact hlog) before between rfl hbetween
  · refine h.step (fun w _ _ => lt_add_one ?_) hstep
    omega

/-- A mint that is interrupted before it returns, by an advance and a second mint. -/
def interleavedSteps : List (ClockStep 2) :=
  [.nextDot 0, .go 0, .advanceLamportTo 1 40, .go 1, .go 1, .go 1, .go 1, .go 1, .nextDot 1, .go 0, .go 1, .go 1]

theorem minted_dots_unique_and_ahead_on_interleavedSteps :
    ∃ s, run step (boot 2 0 0) interleavedSteps
        = some (s, [.began 0, .observed 40, .began 1, .returned 0 1, .returned 1 41]) ∧
      [(1 : UInt64), 41].Nodup ∧ (40 : UInt64) < 41 := by
  have hbelow : Meets step (fun s _ => s.lamportCounter.toNat < 2 ^ 64 - 2000) (boot 2 0 0) interleavedSteps := by
    decide +kernel
  obtain ⟨hnodup, hahead⟩ := minted_dots_unique_and_ahead 2 (boot 2 0 0) (fun _ => rfl) interleavedSteps _
    [.began 0, .observed 40, .began 1, .returned 0 1, .returned 1 41] rfl hbelow
  exact ⟨_, rfl, hnodup, hahead 1 [.began 0, .observed 40] [.returned 0 1] 41 [] rfl (by decide) (.observed 40)
    (by decide) 40 rfl⟩

end LamportClock

end Sovereign.Sync

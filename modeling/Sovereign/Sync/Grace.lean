import Sovereign.Lib.Run
import Sovereign.Sync.Reclamation

/-!
# The grace period

What a participant inside holds back, and what follows for the blocks that were retired meanwhile.

* `Pins s e p` — participant `p` is inside and no advance beyond `e + 1` can happen: its epoch is at most `e`, and no
  scan for an epoch above `e` has passed it;
* `Waiting log r p` — `p` was active when call `r` retired its block, and has not left since;
* `Grace` — whoever waits for a block in a list pins an epoch of that list; nobody waits for a block an advance has
  taken.

`freed_after_readers` is about runs whose advances are on time (`onTime`).  `late_drain_frees_early` is a run with a
late drain: between the epoch swap and the swap of the list, one more advance and one `RetireBlock` are enough.
-/

namespace Sovereign.Sync

open Lib

/-! ### Who waits for whom -/

/-- From the epoch store of `Enter` to the epoch store of `Exit`. -/
def Phase.pins : Phase → Bool
  | .inside | .exiting _ | .detaching _ _ | .detached => true
  | _ => false

/-- The participant is inside. -/
def Participant.Pinned (q : Participant) : Prop := q.active = true ∧ q.phase.pins = true

/-- No scan for an epoch above `e` has passed `p`. -/
def Thread.Ahead (e p : ℕ) : Thread → Prop
  | .scan c chain => e < c → p ∈ chain
  | .check c q rest => e < c → p ∈ q :: rest
  | .retiring _ _ _ next => next.Ahead e p
  | _ => True

/-- A scan is for an epoch that was reached. -/
def Thread.AtMost (g : ℕ) : Thread → Prop
  | .head c | .scan c _ | .check c _ _ => c ≤ g
  | .retiring _ _ _ next => next.AtMost g
  | _ => True

/-- The blocks a thread is about to push, each with its list. -/
def Thread.queued : Thread → List (RetiredNode × ℕ)
  | .retiring n idx _ next => (n, idx) :: next.queued
  | _ => []

/-- The blocks a thread has taken out of a list. -/
def Thread.taken : Thread → List RetiredNode
  | .drain _ _ heads => heads.flatten
  | .snapshot _ _ _ list heads | .walk _ list heads => list ++ heads.flatten
  | .retiring _ _ _ next => next.taken
  | _ => []

/-- `p` is inside and keeps the epoch at `e` or `e + 1`. -/
structure Pins (s : EBRManager) (e p : ℕ) : Prop where
  pinned : (s.participants p).Pinned
  epoch : (s.participants p).epoch ≤ e
  le : e ≤ s.globalEpoch
  global : s.globalEpoch ≤ e + 1
  ahead : ∀ t, (s.threads t).Ahead e p

/-- `p` was active when call `r` started and has not left since. -/
def Waiting (log : List Event) (r p : ℕ) : Prop :=
  ∃ before between, log = before ++ .retired r :: between ∧ activeIn before p = true ∧ .left p ∉ between

/-- Whoever waits for the block of call `r` pins an epoch of list `idx`. -/
structure Held (s : EBRManager) (log : List Event) (idx r : ℕ) : Prop where
  call : r < s.calls
  pins : ∀ p, Waiting log r p → ∃ e, e % 3 = idx ∧ Pins s e p

/-- Nobody waits for the block of call `r`. -/
structure Released (s : EBRManager) (log : List Event) (r : ℕ) : Prop where
  call : r < s.calls
  nobody : ∀ p, ¬ Waiting log r p

/-- What the phase of a participant says about the rest. -/
structure Participant.Ok (s : EBRManager) (p : ℕ) (q : Participant) : Prop where
  active : match q.phase with
    | .outside | .entering _ => q.active = false
    | .pinning | .pinned _ | .inside => q.active = true
    | _ => True
  epoch : ∀ e, q.phase = .pinned e → e ≤ s.globalEpoch
  registered : q.phase ≠ .outside → p < s.registered

/-- The invariant of a run. -/
structure Grace (s : EBRManager) (log : List Event) : Prop where
  participants : ∀ p, (s.participants p).Ok s p
  active : ∀ p, activeIn log p = true ↔ (s.participants p).Pinned
  pins : ∀ p, (s.participants p).Pinned → Pins s s.globalEpoch p
  threads : ∀ t, (s.threads t).AtMost s.globalEpoch
  calls : ∀ r, .retired r ∈ log → r < s.calls
  listed : ∀ idx shard, ∀ n ∈ s.retired idx shard, Held s log idx n.call
  queued : ∀ t, ∀ x ∈ (s.threads t).queued, Held s log x.2 x.1.call
  taken : ∀ t, ∀ n ∈ (s.threads t).taken, Released s log n.call
  safe : FreedAfterReaders log

/-! ### The log -/

section
variable {log : List Event} {ev : Event} {r p : ℕ}

theorem activeIn_append : activeIn (log ++ [ev]) p =
    match ev with
    | .entered q => if q = p then true else activeIn log p
    | .left q => if q = p then false else activeIn log p
    | _ => activeIn log p := by
  rw [activeIn, List.foldl_append]
  rfl

theorem Waiting.mem (h : Waiting log r p) : .retired r ∈ log := by
  obtain ⟨before, between, rfl, -⟩ := h
  simp

/-- One more event: the waiting go on unless they leave, and a call makes everybody inside wait. -/
theorem waiting_append : Waiting (log ++ [ev]) r p ↔
    (Waiting log r p ∧ ev ≠ .left p) ∨ (ev = .retired r ∧ activeIn log p = true) := by
  constructor
  · rintro ⟨before, between, heq, hactive, hleft⟩
    rcases List.eq_nil_or_concat between with rfl | ⟨between, last, rfl⟩
    · obtain ⟨rfl, hev⟩ := List.append_inj' heq rfl
      cases hev
      exact .inr ⟨rfl, hactive⟩
    · rw [List.concat_eq_append, ← List.cons_append, ← List.append_assoc] at heq
      obtain ⟨rfl, hev⟩ := List.append_inj' heq rfl
      cases hev
      rw [List.concat_eq_append, List.mem_append, not_or] at hleft
      exact .inl ⟨⟨before, between, rfl, hactive, hleft.1⟩, fun hev => hleft.2 (by simp [hev])⟩
  · rintro (⟨⟨before, between, rfl, hactive, hleft⟩, hev⟩ | ⟨rfl, hactive⟩)
    · refine ⟨before, between ++ [ev], by simp, hactive, ?_⟩
      rw [List.mem_append, not_or]
      exact ⟨hleft, fun hmem => hev (List.mem_singleton.mp hmem).symm⟩
    · exact ⟨log, [], rfl, hactive, List.not_mem_nil⟩

/-- Safety is decided at the hand-overs. -/
theorem FreedAfterReaders.append (h : FreedAfterReaders log) (hev : ∀ r, ev = .freed r → ∀ p, ¬ Waiting log r p) :
    FreedAfterReaders (log ++ [ev]) := by
  intro before between after r heq p hactive
  rcases List.eq_nil_or_concat after with rfl | ⟨after, last, rfl⟩
  · rw [← List.cons_append, ← List.append_assoc] at heq
    obtain ⟨rfl, hfreed⟩ := List.append_inj' heq rfl
    cases hfreed
    by_contra hleft
    exact hev r rfl p ⟨before, between, rfl, hactive, hleft⟩
  · rw [List.concat_eq_append, ← List.cons_append, ← List.append_assoc, ← List.cons_append, ← List.append_assoc] at heq
    obtain ⟨rfl, -⟩ := List.append_inj' heq rfl
    exact h before between after r (by simp) p hactive

end

/-! ### What a step leaves alone -/

/-- From one state and log to the next: who still waits for an old call waited before, and keeps its pin. -/
structure Keeps (s : EBRManager) (log : List Event) (s' : EBRManager) (log' : List Event) : Prop where
  calls : s.calls ≤ s'.calls
  waiting : ∀ r < s.calls, ∀ p, Waiting log' r p → Waiting log r p ∧ ∀ e, Pins s e p → Pins s' e p

section
variable {s s' : EBRManager} {log log' : List Event} {e p r idx t : ℕ} {th : Thread} {out : List Event}

theorem Held.keep (h : Held s log idx r) (hk : Keeps s log s' log') : Held s' log' idx r where
  call := h.call.trans_le hk.calls
  pins := fun p hp => by
    obtain ⟨hp, hpins⟩ := hk.waiting r h.call p hp
    obtain ⟨e, he, hpe⟩ := h.pins p hp
    exact ⟨e, he, hpins e hpe⟩

theorem Released.keep (h : Released s log r) (hk : Keeps s log s' log') : Released s' log' r where
  call := h.call.trans_le hk.calls
  nobody := fun p hp => h.nobody p (hk.waiting r h.call p hp).1

theorem Thread.Ahead.mono {e e' p : ℕ} (he : e ≤ e') (h : th.Ahead e p) : th.Ahead e' p := by
  induction th with
  | scan c chain => exact fun hc => h (he.trans_lt hc)
  | check c q rest => exact fun hc => h (he.trans_lt hc)
  | retiring n idx shard next ih => exact ih h
  | _ => trivial

theorem Thread.AtMost.mono {g g' : ℕ} (hg : g ≤ g') (h : th.AtMost g) : th.AtMost g' := by
  induction th with
  | head c => exact le_trans h hg
  | scan c chain => exact le_trans h hg
  | check c q rest => exact le_trans h hg
  | retiring n idx shard next ih => exact ih h
  | _ => trivial

/-- A scan for an epoch up to `e` may have passed anybody. -/
theorem Thread.AtMost.ahead {e p : ℕ} (h : th.AtMost e) : th.Ahead e p := by
  induction th with
  | scan c chain => exact fun hc => absurd h (not_le.mpr hc)
  | check c q rest => exact fun hc => absurd h (not_le.mpr hc)
  | retiring n idx shard next ih => exact ih h
  | _ => trivial

theorem Pins.mono (h : Pins s e p) {e' : ℕ} (he : e ≤ e') (hg : e' ≤ s.globalEpoch) : Pins s e' p where
  pinned := h.pinned
  epoch := h.epoch.trans he
  le := hg
  global := h.global.trans (Nat.succ_le_succ he)
  ahead := fun t => (h.ahead t).mono he

/-- A pin and a step of one thread that leaves the epoch and the participants alone. -/
theorem Pins.of_thread (h : Pins s e p) (hparts : s'.participants = s.participants)
    (hg : s'.globalEpoch = s.globalEpoch) (ht : s'.threads = Function.update s.threads t th) (hth : th.Ahead e p) :
    Pins s' e p where
  pinned := hparts ▸ h.pinned
  epoch := hparts ▸ h.epoch
  le := hg ▸ h.le
  global := hg ▸ h.global
  ahead := by
    rw [ht, Function.forall_update_iff _ fun _ th => Thread.Ahead e p th]
    exact ⟨hth, fun u _ => h.ahead u⟩

/-! ### Steps of a participant -/

variable {q : Participant} {ev : Event}

theorem setParticipant_apply (s : EBRManager) (p : ℕ) (q : Participant) (p' : ℕ) :
    (s.setParticipant p q).participants p' = if p' = p then q else s.participants p' :=
  Function.update_apply ..

/-- A pin and a step of a participant that keeps its own pin. -/
theorem Pins.setParticipant (h : Pins s e p) {p' : ℕ} (hown : p = p' → q.Pinned ∧ q.epoch ≤ e) :
    Pins (s.setParticipant p' q) e p where
  pinned := by
    rw [setParticipant_apply]
    split
    · next heq => exact (hown heq).1
    · exact h.pinned
  epoch := by
    rw [setParticipant_apply]
    split
    · next heq => exact (hown heq).2
    · exact h.epoch
  le := h.le
  global := h.global
  ahead := h.ahead

theorem Grace.ok_setParticipant (h : Grace s log) (hok : q.Ok s p) (p' : ℕ) :
    ((s.setParticipant p q).participants p').Ok (s.setParticipant p q) p' := by
  rw [setParticipant_apply]
  split
  · next heq =>
    subst heq
    exact ⟨hok.active, hok.epoch, hok.registered⟩
  · exact ⟨(h.participants p').active, (h.participants p').epoch, (h.participants p').registered⟩

/-- What the step of a participant with its event has to keep. -/
theorem Grace.of_participant (h : Grace s log) (hok : q.Ok s p) (hactive : ∀ p', activeIn log' p' = true ↔
      ((s.setParticipant p q).participants p').Pinned)
    (hpins : ∀ p', ((s.setParticipant p q).participants p').Pinned → Pins (s.setParticipant p q) s.globalEpoch p')
    (hcalls : ∀ r, .retired r ∈ log' → .retired r ∈ log) (hkeep : Keeps s log (s.setParticipant p q) log')
    (hsafe : FreedAfterReaders log') : Grace (s.setParticipant p q) log' where
  participants := h.ok_setParticipant hok
  active := hactive
  pins := hpins
  threads := h.threads
  calls := fun r hr => h.calls r (hcalls r hr)
  listed := fun idx shard n hn => (h.listed idx shard n hn).keep hkeep
  queued := fun t x hx => (h.queued t x hx).keep hkeep
  taken := fun t n hn => (h.taken t n hn).keep hkeep
  safe := hsafe

/-- A step of a participant without an event: it is inside or not as before, with the same epoch. -/
theorem Grace.setParticipant (h : Grace s log) (hok : q.Ok s p) (hpinned : q.Pinned ↔ (s.participants p).Pinned)
    (hepoch : q.Pinned → q.epoch = (s.participants p).epoch) : Grace (s.setParticipant p q) (log ++ []) := by
  have hsame : ∀ p', ((s.setParticipant p q).participants p').Pinned ↔ (s.participants p').Pinned := by
    intro p'
    rw [setParticipant_apply]
    split
    · next heq => rw [heq, hpinned]
    · exact Iff.rfl
  have hpins : ∀ e p', Pins s e p' → Pins (s.setParticipant p q) e p' := fun e p' hp' =>
    hp'.setParticipant fun heq =>
      have hq : q.Pinned := hpinned.mpr (heq ▸ hp'.pinned)
      ⟨hq, (hepoch hq).trans_le (heq ▸ hp'.epoch)⟩
  rw [List.append_nil]
  exact h.of_participant hok (fun p' => (h.active p').trans (hsame p').symm)
    (fun p' hp' => hpins _ p' (h.pins p' ((hsame p').mp hp'))) (fun _ hr => hr)
    ⟨le_rfl, fun r _ p' hp' => ⟨hp', fun e => hpins e p'⟩⟩ h.safe

theorem Grace.entered (h : Grace s log) {c : ℕ} (hphase : (s.participants p).phase = .pinned c) :
    Grace (s.setParticipant p { s.participants p with epoch := c, phase := .inside }) (log ++ [.entered p]) := by
  have hown := h.participants p
  have hle : c ≤ s.globalEpoch := hown.epoch c hphase
  have hactive : (s.participants p).active = true := by
    have := hown.active
    rwa [hphase] at this
  have hnot : ¬ (s.participants p).Pinned := fun hp => by
    have := hp.2
    rw [hphase] at this
    cases this
  set q : Participant := { s.participants p with epoch := c, phase := .inside } with hq
  have hqpinned : q.Pinned := ⟨hactive, rfl⟩
  have hother : ∀ e p', Pins s e p' → Pins (s.setParticipant p q) e p' := fun e p' hp' =>
    hp'.setParticipant fun heq => absurd (heq ▸ hp'.pinned) hnot
  refine h.of_participant ⟨hactive, nofun, fun _ => hown.registered (by rw [hphase]; nofun)⟩ ?_ ?_ ?_ ?_ ?_
  · intro p'
    rw [activeIn_append, setParticipant_apply]
    by_cases heq : p' = p
    · simp [heq, hqpinned]
    · simp [heq, Ne.symm heq, h.active p']
  · intro p' hp'
    rw [setParticipant_apply] at hp'
    split at hp'
    · next heq =>
      -- nobody scans for an epoch that is not reached yet
      exact ⟨by rw [setParticipant_apply, if_pos heq]; exact hqpinned,
        by rw [setParticipant_apply, if_pos heq]; exact hle, le_rfl, Nat.le_succ _, fun t => (h.threads t).ahead⟩
    · exact hother _ p' (h.pins p' hp')
  · intro r hr
    simpa using hr
  · refine ⟨le_rfl, fun r _ p' hp' => ?_⟩
    rcases waiting_append.mp hp' with ⟨hw, -⟩ | ⟨hev, -⟩
    · exact ⟨hw, fun e => hother e p'⟩
    · cases hev
  · exact h.safe.append nofun

theorem Grace.left (h : Grace s log) (hphase : (s.participants p).phase.pins = true) :
    Grace (s.setParticipant p { s.participants p with epoch := InactiveEpoch, phase := .unpinning })
      (log ++ [.left p]) := by
  have hother : ∀ (q : Participant) e p', p' ≠ p → Pins s e p' → Pins (s.setParticipant p q) e p' :=
    fun q e p' hne hp' => hp'.setParticipant fun heq => absurd heq hne
  refine h.of_participant ⟨trivial, nofun, fun _ => (h.participants p).registered ?_⟩ ?_ ?_ ?_ ?_ ?_
  · intro hout
    rw [hout] at hphase
    cases hphase
  · intro p'
    rw [activeIn_append, setParticipant_apply]
    by_cases heq : p' = p
    · simp [heq, Participant.Pinned, Phase.pins]
    · simp [heq, Ne.symm heq, h.active p']
  · intro p' hp'
    rw [setParticipant_apply] at hp'
    split at hp'
    · cases hp'.2
    · next hne => exact hother _ _ p' hne (h.pins p' hp')
  · intro r hr
    simpa using hr
  · refine ⟨le_rfl, fun r _ p' hp' => ?_⟩
    rcases waiting_append.mp hp' with ⟨hw, hne⟩ | ⟨hev, -⟩
    · exact ⟨hw, fun e => hother _ e p' fun heq => hne (by rw [heq])⟩
    · cases hev
  · exact h.safe.append nofun

section
variable (hphase : (s.participants p).phase = .inside ∨ (s.participants p).phase = .outside)
include hphase

/-- `Exit` or `DetachAndProtect` starts, inside or, without effect, outside. -/
theorem Grace.leaving (h : Grace s log) {phase : Phase}
    (hok : ({ s.participants p with phase := phase } : Participant).Ok s p) (hpins : phase.pins = true) :
    Grace (s.setParticipant p { s.participants p with phase := phase }) (log ++ []) := by
  refine h.setParticipant hok ?_ fun _ => rfl
  have hact := (h.participants p).active
  rcases hphase with hphase | hphase
  · have hinside : Phase.inside.pins = true := rfl
    simp only [Participant.Pinned, hphase, hpins, hinside]
  · rw [hphase] at hact
    simp [Participant.Pinned, hact]

theorem Grace.exit (h : Grace s log)
    (hstep : (if p < s.registered then
        some (s.setParticipant p { s.participants p with phase := .exiting 0 }, []) else none) = some (s', out)) :
    Grace s' (log ++ out) := by
  split at hstep
  · next hp =>
    cases hstep
    exact h.leaving hphase ⟨trivial, nofun, fun _ => hp⟩ rfl
  · cases hstep

theorem Grace.detach (h : Grace s log) {slot : ℕ} {ptr : Block}
    (hstep : (if p < s.registered ∧ slot < HazardSlots then
        some (s.setParticipant p { s.participants p with phase := .detaching slot ptr }, []) else none) =
      some (s', out)) : Grace s' (log ++ out) := by
  split at hstep
  · next hp =>
    cases hstep
    exact h.leaving hphase ⟨trivial, nofun, fun _ => hp.1⟩ rfl
  · cases hstep

end

/-- **Every step of `Enter`, `Exit` and `DetachAndProtect` keeps the invariant.** -/
theorem Grace.participantStep (h : Grace s log) (hstep : s.participantStep p = some (s', out)) :
    Grace s' (log ++ out) := by
  have hown := h.participants p
  have hact := hown.active
  have hreg := hown.registered
  rw [EBRManager.participantStep] at hstep
  cases hphase : (s.participants p).phase with
  | outside => simp only [hphase] at hstep; cases hstep
  | inside => simp only [hphase] at hstep; cases hstep
  | entering k =>
    rw [hphase] at hact hreg
    simp only [hphase] at hstep
    split at hstep
    · cases hstep
      refine h.setParticipant ⟨hact, nofun, fun _ => hreg nofun⟩ ?_ fun hq => by cases hq.2
      simp [Participant.Pinned, hphase, Phase.pins]
    · cases hstep
      refine h.setParticipant ⟨rfl, nofun, fun _ => hreg nofun⟩ ?_ fun hq => by cases hq.2
      simp [Participant.Pinned, hphase, Phase.pins]
  | pinning =>
    rw [hphase] at hact hreg
    simp only [hphase] at hstep
    cases hstep
    refine h.setParticipant ⟨hact, ?_, fun _ => hreg nofun⟩ ?_ fun hq => by cases hq.2
    · intro e he
      cases he
      exact le_rfl
    · simp [Participant.Pinned, hphase, Phase.pins]
  | pinned c =>
    simp only [hphase] at hstep
    cases hstep
    exact h.entered hphase
  | exiting k =>
    rw [hphase] at hreg
    simp only [hphase] at hstep
    split at hstep
    · cases hstep
      refine h.setParticipant ⟨trivial, nofun, fun _ => hreg nofun⟩ ?_ fun _ => rfl
      simp [Participant.Pinned, hphase, Phase.pins]
    · cases hstep
      exact h.left (by rw [hphase]; rfl)
  | detaching slot ptr =>
    rw [hphase] at hreg
    simp only [hphase] at hstep
    cases hstep
    refine h.setParticipant ⟨trivial, nofun, fun _ => hreg nofun⟩ ?_ fun _ => rfl
    simp [Participant.Pinned, hphase, Phase.pins]
  | detached =>
    simp only [hphase] at hstep
    cases hstep
    exact h.left (by rw [hphase]; rfl)
  | unpinning =>
    rw [hphase] at hreg
    simp only [hphase] at hstep
    cases hstep
    refine h.setParticipant ⟨rfl, nofun, nofun⟩ ?_ fun hq => by cases hq.2
    simp [Participant.Pinned, hphase, Phase.pins]

/-! ### Steps of a thread -/

/-- What a step of one thread has to keep, if it leaves the participants alone. -/
theorem Grace.advance (h : Grace s log) (hparts : s'.participants = s.participants)
    (hreg : s.registered ≤ s'.registered) (hg : s.globalEpoch ≤ s'.globalEpoch)
    (ht : s'.threads = Function.update s.threads t th) (hkeep : Keeps s log s' log')
    (hactive : ∀ p, activeIn log' p = activeIn log p)
    (hpins : ∀ p, Pins s s.globalEpoch p → Pins s' s'.globalEpoch p) (hmost : th.AtMost s'.globalEpoch)
    (hcalls : ∀ r, .retired r ∈ log' → r < s'.calls)
    (hlisted : ∀ idx shard, ∀ n ∈ s'.retired idx shard, Held s' log' idx n.call)
    (hqueued : ∀ x ∈ th.queued, Held s' log' x.2 x.1.call) (htaken : ∀ n ∈ th.taken, Released s' log' n.call)
    (hsafe : FreedAfterReaders log') : Grace s' log' := by
  refine ⟨fun p => ?_, fun p => ?_, fun p hp => ?_, ?_, hcalls, hlisted, ?_, ?_, hsafe⟩
  · have hp := h.participants p
    rw [hparts]
    exact ⟨hp.active, fun e he => (hp.epoch e he).trans hg, fun hout => (hp.registered hout).trans_le hreg⟩
  · rw [hactive, hparts]
    exact h.active p
  · rw [hparts] at hp
    exact hpins p (h.pins p hp)
  · rw [ht, Function.forall_update_iff _ fun _ th => Thread.AtMost s'.globalEpoch th]
    exact ⟨hmost, fun u _ => (h.threads u).mono hg⟩
  · rw [ht, Function.forall_update_iff _ fun _ th => ∀ x ∈ Thread.queued th, Held s' log' x.2 x.1.call]
    exact ⟨hqueued, fun u _ x hx => (h.queued u x hx).keep hkeep⟩
  · rw [ht, Function.forall_update_iff _ fun _ th => ∀ n ∈ Thread.taken th, Released s' log' n.call]
    exact ⟨htaken, fun u _ n hn => (h.taken u n hn).keep hkeep⟩

/-- A step of one thread that leaves the epoch, the participants and the log alone. -/
theorem Grace.of_thread (h : Grace s log) (hparts : s'.participants = s.participants)
    (hreg : s.registered ≤ s'.registered) (hg : s'.globalEpoch = s.globalEpoch) (hcalls : s'.calls = s.calls)
    (ht : s'.threads = Function.update s.threads t th) (hahead : ∀ e p, Pins s e p → th.Ahead e p)
    (hmost : th.AtMost s.globalEpoch)
    (hlisted : ∀ idx shard, ∀ n ∈ s'.retired idx shard, Held s log idx n.call)
    (hqueued : ∀ x ∈ th.queued, Held s log x.2 x.1.call) (htaken : ∀ n ∈ th.taken, Released s log n.call) :
    Grace s' (log ++ []) := by
  have hpins : ∀ e p, Pins s e p → Pins s' e p := fun e p hp => hp.of_thread hparts hg ht (hahead e p hp)
  have hkeep : Keeps s log s' log := ⟨hcalls.ge, fun r _ p hp => ⟨hp, fun e => hpins e p⟩⟩
  rw [List.append_nil]
  exact h.advance hparts hreg hg.ge ht hkeep (fun _ => rfl) (fun p hp => hg ▸ hpins _ p hp) (hg ▸ hmost)
    (fun r hr => hcalls ▸ h.calls r hr) (fun idx shard n hn => (hlisted idx shard n hn).keep hkeep)
    (fun x hx => (hqueued x hx).keep hkeep) (fun n hn => (htaken n hn).keep hkeep) h.safe

theorem Grace.setThread (h : Grace s log) (hahead : ∀ e p, Pins s e p → th.Ahead e p)
    (hmost : th.AtMost s.globalEpoch) (hqueued : ∀ x ∈ th.queued, Held s log x.2 x.1.call)
    (htaken : ∀ n ∈ th.taken, Released s log n.call) : Grace (s.setThread t th) (log ++ []) :=
  h.of_thread rfl le_rfl rfl rfl rfl hahead hmost h.listed hqueued htaken

theorem Grace.freed (h : Grace s log) (hr : Released s log r) : Grace s (log ++ [.freed r]) := by
  have hkeep : Keeps s log s (log ++ [.freed r]) := by
    refine ⟨le_rfl, fun r' _ p hp => ?_⟩
    rcases waiting_append.mp hp with ⟨hw, -⟩ | ⟨hev, -⟩
    · exact ⟨hw, fun _ hp => hp⟩
    · cases hev
  refine { h with
    active := fun p => ?_
    calls := fun r' hr' => h.calls r' (by simpa using hr')
    listed := fun idx shard n hn => (h.listed idx shard n hn).keep hkeep
    queued := fun t x hx => (h.queued t x hx).keep hkeep
    taken := fun t n hn => (h.taken t n hn).keep hkeep
    safe := h.safe.append fun r' hev => ?_ }
  · rw [activeIn_append]
    exact h.active p
  · cases hev
    exact hr.nobody

/-- **A `Retire` call starts**: whoever is inside waits, and pins the current epoch. -/
theorem Grace.retire (h : Grace s log) (t : ℕ) (type : RetiredType) (block : Block) :
    Grace ({ s with calls := s.calls + 1 }.setThread t
      (.retiring ⟨type, block, s.calls⟩ (s.globalEpoch % 3) none .idle)) (log ++ [.retired s.calls]) := by
  set s' := { s with calls := s.calls + 1 }.setThread t
    (.retiring ⟨type, block, s.calls⟩ (s.globalEpoch % 3) none .idle) with hs'
  have hpins : ∀ e p, Pins s e p → Pins s' e p := fun e p hp => hp.of_thread rfl rfl rfl trivial
  have hkeep : Keeps s log s' (log ++ [.retired s.calls]) := by
    refine ⟨Nat.le_succ _, fun r hr p hp => ?_⟩
    rcases waiting_append.mp hp with ⟨hw, -⟩ | ⟨hev, -⟩
    · exact ⟨hw, fun e => hpins e p⟩
    · cases hev
      exact absurd hr (lt_irrefl _)
  refine h.advance rfl le_rfl le_rfl rfl hkeep (fun p => activeIn_append) (fun p => hpins _ p) trivial
    (fun r hr => ?_) (fun idx shard n hn => (h.listed idx shard n hn).keep hkeep) (fun x hx => ?_) nofun
    (h.safe.append nofun)
  · rcases List.mem_append.mp hr with hr | hr
    · exact (h.calls r hr).trans (Nat.lt_succ_self _)
    · cases List.mem_singleton.mp hr
      exact Nat.lt_succ_self _
  · -- the number of the call is new
    cases List.mem_singleton.mp hx
    refine ⟨Nat.lt_succ_self _, fun p hp => ?_⟩
    rcases waiting_append.mp hp with ⟨hw, -⟩ | ⟨-, hactive⟩
    · exact absurd (h.calls _ hw.mem) (lt_irrefl _)
    · exact ⟨s.globalEpoch, rfl, hpins _ p (h.pins p ((h.active p).mp hactive))⟩

/-- **The epoch is swapped.**  A thread at the end of its scan has passed everybody, so nobody inside pins an older
epoch. -/
theorem Grace.swapEpoch (h : Grace s log) (hth : s.threads t = .scan s.globalEpoch [])
    (hbound : s.globalEpoch + 1 < InactiveEpoch) :
    Grace ({ s with globalEpoch := (s.globalEpoch + 1) % 2 ^ 64 }.setThread t (.drain s.globalEpoch 0 []))
      (log ++ []) := by
  have hsucc : (s.globalEpoch + 1) % 2 ^ 64 = s.globalEpoch + 1 := by
    unfold InactiveEpoch at hbound
    omega
  rw [hsucc, List.append_nil]
  set s' := { s with globalEpoch := s.globalEpoch + 1 }.setThread t (.drain s.globalEpoch 0 []) with hs'
  have hpins : ∀ e p, Pins s e p → Pins s' e p := by
    intro e p hp
    have hpassed : s.globalEpoch ≤ e := by
      have hahead := hp.ahead t
      rw [hth] at hahead
      exact not_lt.mp fun hlt => List.not_mem_nil (hahead hlt)
    exact ⟨hp.pinned, hp.epoch, hp.le.trans (Nat.le_succ _), Nat.succ_le_succ hpassed,
      (Function.forall_update_iff _ fun _ th => Thread.Ahead e p th).mpr ⟨trivial, fun u _ => hp.ahead u⟩⟩
  have hkeep : Keeps s log s' log := ⟨le_rfl, fun r _ p hp => ⟨hp, fun e => hpins e p⟩⟩
  exact h.advance rfl le_rfl (Nat.le_succ _) rfl hkeep (fun _ => rfl)
    (fun p hp => (hpins _ p hp).mono (Nat.le_succ _) le_rfl) trivial h.calls
    (fun idx shard n hn => (h.listed idx shard n hn).keep hkeep) nofun nofun h.safe

/-- **The three-epoch argument.**  The list two behind the next epoch has only blocks nobody waits for. -/
theorem Held.released (h : Held s log idx r) (hidx : idx = (s.globalEpoch + 1) % 3) : Released s log r := by
  refine ⟨h.call, fun p hp => ?_⟩
  obtain ⟨e, he, hpins⟩ := h.pins p hp
  have := hpins.le
  have := hpins.global
  omega

theorem mem_setRetired {i j idx shard : ℕ} {l : List RetiredNode} {n : RetiredNode}
    (hn : n ∈ (s.setRetired idx shard l).retired i j) : (i = idx ∧ n ∈ l) ∨ n ∈ s.retired i j := by
  have hn : n ∈ Function.update s.retired idx (Function.update (s.retired idx) shard l) i j := hn
  rw [Function.update_apply] at hn
  split at hn
  · next hi =>
    rw [Function.update_apply] at hn
    split at hn
    · exact .inl ⟨hi, hn⟩
    · exact .inr (hi ▸ hn)
  · exact .inr hn

/-- **Every step of `Retire`, `RetireBlock` and `AdvanceEpoch` keeps the invariant**, if it is on time. -/
theorem Grace.threadStep (h : Grace s log) (hstep : s.threadStep t = some (s', out))
    (hon : onTime s (.thread t) = true) : Grace s' (log ++ out) := by
  have hqueued := h.queued t
  have htaken := h.taken t
  have hmost := h.threads t
  have hahead : ∀ e p, Pins s e p → (s.threads t).Ahead e p := fun e p hp => hp.ahead t
  rw [EBRManager.threadStep] at hstep
  rw [onTime] at hon
  split at hstep
  · cases hstep
  · next n idx next hth =>
    rw [hth] at hqueued htaken hmost hahead
    cases hstep
    exact h.of_thread rfl le_rfl rfl rfl rfl hahead hmost h.listed hqueued htaken
  · next n idx shard next hth =>
    rw [hth] at hqueued htaken hmost hahead
    cases hstep
    refine h.of_thread rfl le_rfl rfl rfl rfl hahead hmost (fun i j m hm => ?_)
      (fun x hx => hqueued x (List.mem_cons_of_mem _ hx)) htaken
    -- the pushed block goes from the thread to its list
    rcases mem_setRetired hm with ⟨rfl, hm⟩ | hm
    · rcases List.mem_cons.mp hm with rfl | hm
      · exact hqueued (m, i) List.mem_cons_self
      · exact h.listed i shard m hm
    · exact h.listed i j m hm
  · next c hth =>
    rw [hth] at hmost
    cases hstep
    refine h.setThread (fun e p hp _ => ?_) hmost nofun nofun
    have hreg := (h.participants p).registered fun hout => by
      have := hp.pinned.2
      rw [hout] at this
      cases this
    rw [EBRManager.chain, List.mem_reverse]
    exact List.mem_range.mpr hreg
  · next c hth =>
    rw [hth] at hon
    split at hstep
    · next hc =>
      subst hc
      cases hstep
      exact h.swapEpoch hth (of_decide_eq_true hon)
    · cases hstep
      exact h.setThread (fun _ _ _ => trivial) trivial nofun nofun
  · next c p rest hth =>
    rw [hth] at hmost hahead
    cases hstep
    split
    · exact h.setThread (fun e q hq hc => hahead e q hq hc) hmost nofun nofun
    · next hinactive =>
      refine h.setThread (fun e q hq hc => ?_) hmost nofun nofun
      rcases List.mem_cons.mp (hahead e q hq hc) with rfl | hmem
      · exact absurd hq.pinned.1 hinactive
      · exact hmem
  · next c p rest hth =>
    rw [hth] at hmost hahead
    cases hstep
    split
    · exact h.setThread (fun _ _ _ => trivial) trivial nofun nofun
    · next hepoch =>
      -- whoever pins an older epoch stops the scan
      refine h.setThread (fun e q hq hc => ?_) hmost nofun nofun
      rcases List.mem_cons.mp (hahead e q hq hc) with rfl | hmem
      · exact absurd (hq.epoch.trans_lt hc) hepoch
      · exact hmem
  · next c shard heads hth =>
    rw [hth] at htaken hon
    split at hstep
    · next hshard =>
      cases hstep
      refine h.of_thread rfl le_rfl rfl rfl rfl (fun _ _ _ => trivial) trivial (fun i j m hm => ?_) nofun
        fun m hm => ?_
      · rcases mem_setRetired hm with ⟨-, hm⟩ | hm
        · cases hm
        · exact h.listed i j m hm
      · rw [Thread.taken, List.flatten_append, List.mem_append] at hm
        rcases hm with hm | hm
        · exact htaken m hm
        · exact (h.listed _ shard m (by simpa using hm)).released (of_decide_eq_true hon hshard)
    · cases hstep
      exact h.setThread (fun _ _ _ => trivial) trivial nofun htaken
  · next hazards list heads hth =>
    rw [hth] at htaken
    cases hstep
    exact h.setThread (fun _ _ _ => trivial) trivial nofun htaken
  · next p chain slot hazards list heads hth =>
    rw [hth] at htaken
    cases hstep
    split
    · exact h.setThread (fun _ _ _ => trivial) trivial nofun htaken
    · exact h.setThread (fun _ _ _ => trivial) trivial nofun htaken
  · cases hstep
    exact h.setThread (fun _ _ _ => trivial) trivial nofun nofun
  · next hazards list heads hth =>
    rw [hth] at htaken
    cases hstep
    exact h.setThread (fun _ _ _ => trivial) trivial nofun htaken
  · next hazards n list heads hth =>
    rw [hth] at htaken
    have hn : Released s log n.call := htaken n List.mem_cons_self
    have hrest : ∀ m ∈ (Thread.walk hazards list heads).taken, Released s log m.call :=
      fun m hm => htaken m (List.mem_cons_of_mem _ hm)
    split at hstep
    · cases hstep
      refine h.setThread (fun _ _ _ => trivial) trivial (fun x hx => ?_) hrest
      cases List.mem_singleton.mp hx
      exact ⟨hn.call, fun p hp => absurd hp (hn.nobody p)⟩
    · cases hstep
      rw [← List.append_nil (log ++ _)]
      refine (h.freed hn).setThread (fun _ _ _ => trivial) trivial nofun fun m hm => ?_
      refine (h.freed hn).taken t m ?_
      rw [hth]
      exact List.mem_cons_of_mem _ hm

end

/-! ### Runs -/

theorem grace_new : Grace .new [] where
  participants := fun _ => ⟨rfl, nofun, fun hout => absurd rfl hout⟩
  active := fun _ => ⟨nofun, fun hp => by cases hp.1⟩
  pins := fun _ hp => by cases hp.1
  threads := fun _ => trivial
  calls := nofun
  listed := nofun
  queued := nofun
  taken := nofun
  safe := fun before _ _ _ heq => by cases before <;> cases heq

/-- **Every atomic step keeps the invariant.** -/
theorem Grace.step {s s' : EBRManager} {log out : List Event} (h : Grace s log) (a : Action)
    (hon : onTime s a = true) (hstep : s.step a = some (s', out)) : Grace s' (log ++ out) := by
  cases a with
  | register =>
    cases hstep
    exact h.of_thread rfl (Nat.le_succ _) rfl rfl (Function.update_eq_self 0 s.threads).symm
      (fun e p hp => hp.ahead 0) (h.threads 0) h.listed (h.queued 0) (h.taken 0)
  | enter p =>
    simp only [EBRManager.step] at hstep
    split at hstep
    · next hphase =>
      have hact := (h.participants p).active
      rw [hphase] at hact
      split at hstep
      · next hp =>
        cases hstep
        refine h.setParticipant ⟨hact, nofun, fun _ => hp⟩ ?_ fun hq => by cases hq.2
        simp [Participant.Pinned, hphase, Phase.pins]
      · cases hstep
    · cases hstep
  | exit p =>
    simp only [EBRManager.step] at hstep
    split at hstep
    · next hphase => exact h.exit (.inl hphase) hstep
    · next hphase => exact h.exit (.inr hphase) hstep
    · cases hstep
  | detach p slot ptr =>
    simp only [EBRManager.step] at hstep
    split at hstep
    · next hphase => exact h.detach (.inl hphase) hstep
    · next hphase => exact h.detach (.inr hphase) hstep
    · cases hstep
  | participant p => exact h.participantStep hstep
  | retire t type block =>
    simp only [EBRManager.step] at hstep
    split at hstep
    · cases hstep
      exact h.retire t type block
    · cases hstep
  | advance t =>
    simp only [EBRManager.step] at hstep
    split at hstep
    · cases hstep
      exact h.setThread (fun _ _ _ => trivial) le_rfl nofun nofun
    · cases hstep
  | thread t => exact h.threadStep hstep hon

/-- **Reclamation is safe if advances are on time.**  Over every interleaving of the atomic steps of `Enter`, `Exit`,
`DetachAndProtect`, `Retire`, `RetireBlock` and `AdvanceEpoch` by any number of participants and threads: if no list is
drained after the epoch has moved on, a block is handed to the free list only after every participant that was active
at its retirement has left. -/
theorem freed_after_readers {actions : List Action} {s : EBRManager} {log : List Event}
    (hon : Meets EBRManager.step (fun s a => onTime s a = true) .new actions)
    (hrun : run EBRManager.step .new actions = some (s, log)) : FreedAfterReaders log :=
  (run_invariant (fun _ _ a _ _ h hon hstep => Grace.step h a hon hstep) grace_new hon hrun).safe

/-- Register a participant, let it enter, retire a block, advance; the participant leaves; advance and free. -/
def graceRun : List Action :=
  [[.register], .enter 0 :: .replicate 7 (.participant 0), [.retire 2 .node 64, .thread 2, .thread 2],
    .advance 0 :: .replicate 260 (.thread 0), .exit 0 :: .replicate 6 (.participant 0),
    .advance 1 :: .replicate 267 (.thread 1)].flatten

theorem freed_after_readers_on_graceRun :
    ∃ s log, run EBRManager.step .new graceRun = some (s, log) ∧ .freed 0 ∈ log ∧ FreedAfterReaders log := by
  have hlog : (run EBRManager.step .new graceRun).map Prod.snd =
      some [.entered 0, .retired 0, .left 0, .freed 0] := by decide +kernel
  obtain ⟨⟨s, log⟩, hrun, hlog⟩ := Option.map_eq_some_iff.mp hlog
  refine ⟨s, log, hrun, ?_, freed_after_readers (by decide +kernel) hrun⟩
  rw [show log = _ from hlog]
  decide

/-- Thread 0 swaps the epoch and stops before the list; thread 1 swaps the epoch once more; the participant enters and
thread 2 retires a block into the list thread 0 goes on to drain. -/
def lateDrain : List Action :=
  [[.register], .advance 0 :: .replicate 3 (.thread 0), .advance 1 :: .replicate 3 (.thread 1),
    .enter 0 :: .replicate 7 (.participant 0), [.retire 2 .node 64, .thread 2, .thread 2],
    .replicate 264 (.thread 0)].flatten

/-- **A late drain frees a block under a reader**: the participant has entered before the block was retired and is
still inside when the block is handed to the free list. -/
theorem late_drain_frees_early :
    ∃ s log, run EBRManager.step .new lateDrain = some (s, log) ∧ (s.participants 0).phase = .inside ∧
      ¬ FreedAfterReaders log := by
  have hlog : (run EBRManager.step .new lateDrain).map (fun r => (r.2, (r.1.participants 0).phase)) =
      some ([.entered 0, .retired 0, .freed 0], .inside) := by decide +kernel
  obtain ⟨⟨s, log⟩, hrun, heq⟩ := Option.map_eq_some_iff.mp hlog
  obtain ⟨hlog, hphase⟩ := Prod.mk.inj heq
  refine ⟨s, log, hrun, hphase, fun hsafe => ?_⟩
  have hleft := hsafe [.entered 0] [] [] 0 hlog 0 rfl
  cases hleft

end Sovereign.Sync

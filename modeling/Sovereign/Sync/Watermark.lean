import Sovereign.Sync.Clock
import Sovereign.Sync.Reconstruct

/-!
# The reserved watermark and its file

`lastSavedCounter` is meant to be ahead of every counter in use, and the file to follow it, so that a
node that boots from its file mints nothing twice.

The watermark.  `NextDot` reserves `counter + 1000` only if that is above the watermark;
`AdvanceLamportTo` reserves `remoteCounter + 1000` if `remoteCounter` is above it.  The sums wrap: in the
last thousand counters the second path moves the watermark down, and the first does not move it at all.
And an `AdvanceLamportTo` that finds the clock already raised returns at once, while the call that
raised it may not have moved the watermark yet (`watermark_can_fall_and_lag`).  Where neither happens
the watermark never falls and covers what was minted and observed (`watermark_monotone_and_covering`).

The file.  A value is dropped when the worker is busy, and two values can be handed over in the wrong
order, so the file can be behind a counter in use for good, and the next life mints it again
(`dropped_value_is_minted_again`).  If every hand-over finds the worker parked and hands over the
current watermark, the file covers everything as soon as the worker is idle and no call is in flight
(`drained_file_covers`); and after `Close` it does in any case (`closed_file_covers`).
-/

namespace Sovereign.Sync

open Lib

namespace ClockCall

def counter? : ClockCall → Option UInt64
  | .idle | .minting => none
  | .minted counter | .reserving counter | .comparing counter _ | .handing counter => some counter
  | .advancing remoteCounter | .raising remoteCounter _ | .covering remoteCounter
  | .extending remoteCounter _ | .announcing remoteCounter => some remoteCounter

/-- The counter that the clock has and a call still has to move the watermark beyond. -/
def owed? : ClockCall → Option UInt64
  | .minted counter | .reserving counter | .comparing counter _ => some counter
  | .covering remoteCounter | .extending remoteCounter _ => some remoteCounter
  | _ => none

/-- The counter a call has moved the watermark beyond. -/
def reserved? : ClockCall → Option UInt64
  | .handing counter => some counter
  | .announcing remoteCounter => some remoteCounter
  | _ => none

/-- The counter an `AdvanceLamportTo` compares with the clock. -/
def advancing? : ClockCall → Option UInt64
  | .advancing remoteCounter => some remoteCounter
  | _ => none

end ClockCall

namespace LamportClock

variable {n : ℕ}

/-- The sums with the reservation window stay in range. -/
def NoWrap (s : LamportClock n) : ClockStep n → Prop
  | .go w => s.calls w = .minting → s.lamportCounter.toNat + 1001 < 2 ^ 64
  | .advanceLamportTo _ remoteCounter => remoteCounter.toNat + 1000 < 2 ^ 64
  | _ => True

instance (s : LamportClock n) : (a : ClockStep n) → Decidable (s.NoWrap a)
  | .go _ => inferInstanceAs (Decidable (_ → _))
  | .advanceLamportTo .. => inferInstanceAs (Decidable (_ < _))
  | .nextDot _ | .park | .persist | .close => inferInstanceAs (Decidable True)

/-- An `AdvanceLamportTo` that finds the clock at its counter finds the watermark there. -/
def NotOvertaken (s : LamportClock n) : ClockStep n → Prop
  | .go w => (s.calls w).advancing?.all (fun r => r ≤ s.lamportCounter → r ≤ s.lastSavedCounter) = true
  | _ => True

instance (s : LamportClock n) : (a : ClockStep n) → Decidable (s.NotOvertaken a)
  | .go _ => inferInstanceAs (Decidable (_ = _))
  | .advanceLamportTo .. | .nextDot _ | .park | .persist | .close => inferInstanceAs (Decidable True)

/-- A hand-over finds the worker parked, and hands over the current watermark. -/
def HandedOver (s : LamportClock n) : ClockStep n → Prop
  | .go w => (s.calls w).reserved?.all
      (fun c => s.worker = .parked ∧ c + 1000 = s.lastSavedCounter) = true
  | _ => True

instance (s : LamportClock n) : (a : ClockStep n) → Decidable (s.HandedOver a)
  | .go _ => inferInstanceAs (Decidable (_ = _))
  | .advanceLamportTo .. | .nextDot _ | .park | .persist | .close => inferInstanceAs (Decidable True)

variable {s s' : LamportClock n} {w : Fin n} {log out : List (ClockEvent n)} {a : ClockStep n}
  {b d : UInt64} {c c' : ClockCall}
  {p : PersistWorker}

/-! ### The watermark never falls -/

/-- What the calls in flight know of the watermark. -/
structure Roomy (s : LamportClock n) : Prop where
  room : ∀ w c, (s.calls w).counter? = some c → c.toNat + 1000 < 2 ^ 64
  comparing : ∀ w c l, s.calls w = .comparing c l → l < c + 1000
  extending : ∀ w r l, s.calls w = .extending r l → l < r

theorem le_larger (a b : UInt64) : a ≤ max a b ∧ b ≤ max a b := by
  rw [show max a b = if a ≤ b then b else a from rfl]
  split
  · next h => exact ⟨h, UInt64.le_refl b⟩
  · next h => exact ⟨UInt64.le_refl a, UInt64.le_of_lt (UInt64.not_le.mp h)⟩

theorem lt_add_window {c : UInt64} (h : c.toNat + 1000 < 2 ^ 64) : c < c + 1000 := by
  rw [UInt64.lt_iff_toNat_lt, UInt64.toNat_add]
  simp only [UInt64.reduceToNat]
  omega

namespace Roomy

theorem of_idle (hidle : ∀ w, s.calls w = .idle) : s.Roomy where
  room := by
    intro w c hc
    rw [hidle w] at hc
    cases hc
  comparing := by
    intro w c l hc
    rw [hidle w] at hc
    cases hc
  extending := by
    intro w r l hr
    rw [hidle w] at hr
    cases hr

theorem move (h : s.Roomy) {a : UInt64} (hroom : ∀ v, c.counter? = some v → v.toNat + 1000 < 2 ^ 64)
    (hcomparing : ∀ v l, c = .comparing v l → l < v + 1000 := by intro v l hv; cases hv)
    (hextending : ∀ r l, c = .extending r l → l < r := by intro r l hr; cases hr) :
    Roomy ⟨a, b, p, d, Function.update s.calls w c⟩ where
  room := forall_goto (P := fun _ c => ∀ v, c.counter? = some v → v.toNat + 1000 < 2 ^ 64) hroom h.room
  comparing := forall_goto (P := fun _ c => ∀ v l, c = .comparing v l → l < v + 1000) hcomparing h.comparing
  extending := forall_goto (P := fun _ c => ∀ r l, c = .extending r l → l < r) hextending h.extending

theorem keep (h : s.Roomy) {a : UInt64} (hw : s.calls w = c') (hcounter : c.counter? = c'.counter? := by rfl)
    (hcomparing : ∀ v l, c = .comparing v l → l < v + 1000 := by intro v l hv; cases hv)
    (hextending : ∀ r l, c = .extending r l → l < r := by intro r l hr; cases hr) :
    Roomy ⟨a, b, p, d, Function.update s.calls w c⟩ :=
  h.move (fun v hv => h.room w v (by rw [hw, ← hcounter, hv])) hcomparing hextending

theorem finish (h : s.Roomy) : Roomy ({ s with worker := p }.goto w .idle) :=
  h.move (by intro v hv; cases hv)

/-- **One operation**: the calls keep what they know, and the watermark does not fall. -/
theorem go (h : s.Roomy) (hwrap : s.NoWrap (.go w)) (hgo : Go s w s' out) :
    s'.Roomy ∧ s.lastSavedCounter ≤ s'.lastSavedCounter := by
  have hrefl := UInt64.le_refl s.lastSavedCounter
  cases hgo with
  | add hw =>
    refine ⟨h.move fun v hv => ?_, hrefl⟩
    cases hv
    have hroom := hwrap hw
    rw [UInt64.toNat_add]
    simp only [UInt64.reduceToNat]
    omega
  | covered hw hle => exact ⟨h.finish, hrefl⟩
  | uncovered hw => exact ⟨h.keep hw, hrefl⟩
  | reserved hw hle => exact ⟨h.finish, hrefl⟩
  | loadReserved hw hlt =>
    refine ⟨h.keep hw rfl ?_, hrefl⟩
    intro v l hv
    cases hv
    exact UInt64.not_le.mp hlt
  | reserve hw =>
    exact ⟨h.keep hw, UInt64.le_of_lt (h.comparing w _ _ hw)⟩
  | reserveLost hw => exact ⟨h.keep hw, hrefl⟩
  | hand hw => exact ⟨h.finish, hrefl⟩
  | behind hw hle => exact ⟨h.finish, hrefl⟩
  | loadClock hw hlt => exact ⟨h.keep hw, hrefl⟩
  | raise hw => exact ⟨h.keep hw, hrefl⟩
  | raiseLost hw => exact ⟨h.keep hw, hrefl⟩
  | reached hw hle => exact ⟨h.finish, hrefl⟩
  | loadCovered hw hlt =>
    refine ⟨h.keep hw rfl (by intro v l hv; cases hv) ?_, hrefl⟩
    intro r l hr
    cases hr
    exact UInt64.not_le.mp hlt
  | extend hw =>
    refine ⟨h.keep hw, ?_⟩
    exact UInt64.le_of_lt (UInt64.lt_trans (h.extending w _ _ hw)
      (lt_add_window (h.room w _ (by rw [hw]; rfl))))
  | extendLost hw => exact ⟨h.keep hw, hrefl⟩
  | announce hw => exact ⟨h.finish, hrefl⟩

theorem other (h : s.Roomy) (hwrap : s.NoWrap a) (hother : Other s a s' out) :
    s'.Roomy ∧ s'.lastSavedCounter = s.lastSavedCounter := by
  cases hother with
  | nextDot hw => exact ⟨h.move (by intro v hv; cases hv), rfl⟩
  | advance hw =>
    refine ⟨h.move fun v hv => ?_, rfl⟩
    cases hv
    exact hwrap
  | park hw => exact ⟨⟨h.room, h.comparing, h.extending⟩, rfl⟩
  | persist hw => exact ⟨⟨h.room, h.comparing, h.extending⟩, rfl⟩
  | close hw hidle => exact ⟨⟨h.room, h.comparing, h.extending⟩, rfl⟩

theorem step (h : s.Roomy) (hwrap : s.NoWrap a) (hstep : s.step a = some (s', out)) :
    s'.Roomy ∧ s.lastSavedCounter ≤ s'.lastSavedCounter := by
  rcases step_cases hstep with ⟨w, rfl, hgo⟩ | hother
  · exact h.go hwrap hgo
  · obtain ⟨hroomy, heq⟩ := h.other hwrap hother
    exact ⟨hroomy, UInt64.le_of_eq heq.symm⟩

end Roomy

/-! ### The watermark covers what is over -/

/-- The watermark is beyond everything that is over, and beyond what calls in flight have reserved. -/
structure Covers (s : LamportClock n) (log : List (ClockEvent n)) : Prop where
  roomy : s.Roomy
  ended : ∀ ev ∈ log, ∀ v, ev.counter? = some v → v ≤ s.lastSavedCounter
  reserved : ∀ w v, (s.calls w).reserved? = some v → v ≤ s.lastSavedCounter

namespace Covers

theorem move (h : s.Covers log) {a : UInt64}
    (hroomy : Roomy ⟨a, b, p, d, Function.update s.calls w c⟩) (hle : s.lastSavedCounter ≤ b)
    (hreserved : ∀ v, c.reserved? = some v → v ≤ b) (hout : ∀ ev ∈ out, ∀ v, ev.counter? = some v → v ≤ b) :
    Covers ⟨a, b, p, d, Function.update s.calls w c⟩ (log ++ out) where
  roomy := hroomy
  ended := by
    intro ev hev v hv
    rcases List.mem_append.mp hev with hev | hev
    · exact UInt64.le_trans (h.ended ev hev v hv) hle
    · exact hout ev hev v hv
  reserved := forall_goto (P := fun _ c => ∀ v, c.reserved? = some v → v ≤ b) hreserved fun u v hv =>
    UInt64.le_trans (h.reserved u v hv) hle

theorem finish (h : s.Covers log) {v : UInt64} (hv : v ≤ s.lastSavedCounter) {ev : ClockEvent n}
    (hev : ev.counter? = some v) (hroomy : Roomy ({ s with worker := p }.goto w .idle)) :
    Covers ({ s with worker := p }.goto w .idle) (log ++ [ev]) := by
  refine h.move hroomy (UInt64.le_refl _) (by intro u hu; cases hu) ?_
  intro ev' hev' u hu
  rw [List.mem_singleton.mp hev', hev] at hu
  cases hu
  exact hv

theorem quiet (h : s.Covers log) {a : UInt64}
    (hroomy : Roomy ({ s with lamportCounter := a, lastSavedCounter := b }.goto w c)) (hle : s.lastSavedCounter ≤ b)
    (hreserved : ∀ v, c.reserved? = some v → v ≤ b := by intro v hv; cases hv) :
    Covers ({ s with lamportCounter := a, lastSavedCounter := b }.goto w c) (log ++ []) :=
  h.move hroomy hle hreserved (List.forall_mem_nil _)

theorem go (h : s.Covers log) (hwrap : s.NoWrap (.go w)) (hover : s.NotOvertaken (.go w)) (hgo : Go s w s' out) :
    s'.Covers (log ++ out) := by
  obtain ⟨hroomy, hle⟩ := h.roomy.go hwrap hgo
  cases hgo with
  | add hw => exact h.quiet hroomy hle
  | covered hw hcovered => exact h.finish hcovered rfl hroomy
  | uncovered hw => exact h.quiet hroomy hle
  | @reserved c hw hcovered =>
    have hlt := lt_add_window (h.roomy.room w c (by rw [hw]; rfl))
    exact h.finish (UInt64.le_trans (UInt64.le_of_lt hlt) hcovered) rfl hroomy
  | loadReserved hw hlt => exact h.quiet hroomy hle
  | @reserve c hw =>
    refine h.quiet hroomy hle ?_
    intro v hv
    cases hv
    exact UInt64.le_of_lt (lt_add_window (h.roomy.room w c (by rw [hw]; rfl)))
  | reserveLost hw => exact h.quiet hroomy hle
  | hand hw => exact h.finish (h.reserved w _ (by rw [hw]; rfl)) rfl hroomy
  | behind hw hbehind =>
    have hall : Option.all _ _ = true := hover
    rw [hw] at hall
    exact h.finish (of_decide_eq_true hall hbehind) rfl hroomy
  | loadClock hw hlt => exact h.quiet hroomy hle
  | raise hw => exact h.quiet hroomy hle
  | raiseLost hw => exact h.quiet hroomy hle
  | reached hw hreached => exact h.finish hreached rfl hroomy
  | loadCovered hw hlt => exact h.quiet hroomy hle
  | @extend r hw =>
    refine h.quiet hroomy hle ?_
    intro v hv
    cases hv
    exact UInt64.le_of_lt (lt_add_window (h.roomy.room w r (by rw [hw]; rfl)))
  | extendLost hw => exact h.quiet hroomy hle
  | announce hw => exact h.finish (h.reserved w _ (by rw [hw]; rfl)) rfl hroomy

theorem other (h : s.Covers log) (hwrap : s.NoWrap a) (hother : Other s a s' out) : s'.Covers (log ++ out) := by
  obtain ⟨hroomy, -⟩ := h.roomy.other hwrap hother
  cases hother with
  | nextDot hw =>
    refine h.move hroomy (UInt64.le_refl _) (by intro v hv; cases hv) ?_
    intro ev hev v hv
    rw [List.mem_singleton.mp hev] at hv
    cases hv
  | advance hw => exact h.quiet hroomy (UInt64.le_refl _)
  | park hw =>
    rw [List.append_nil]
    exact ⟨hroomy, h.ended, h.reserved⟩
  | persist hw =>
    rw [List.append_nil]
    exact ⟨hroomy, h.ended, h.reserved⟩
  | close hw hidle =>
    rw [List.append_nil]
    exact ⟨hroomy, h.ended, h.reserved⟩

theorem step (h : s.Covers log) (hwrap : s.NoWrap a) (hover : s.NotOvertaken a)
    (hstep : s.step a = some (s', out)) : s'.Covers (log ++ out) := by
  rcases step_cases hstep with ⟨w, rfl, hgo⟩ | hother
  · exact h.go hwrap hover hgo
  · exact h.other hwrap hother

end Covers

/-- **The watermark is monotone and covers the clock** over every interleaving in which the sums with
the window of 1000 stay in range and no `AdvanceLamportTo` finds the clock at its counter but the
watermark below: between any two states of the run it does not fall, and in every state it is at least
every counter that a finished `NextDot` returned or a finished `AdvanceLamportTo` observed. -/
theorem watermark_monotone_and_covering (n : ℕ) (start : LamportClock n) (hidle : ∀ w, start.calls w = .idle)
    (steps more : List (ClockStep n)) (s s' : LamportClock n) (log log' : List (ClockEvent n))
    (hrun : run step start steps = some (s, log)) (hmore : run step s more = some (s', log'))
    (hsteps : Meets step (fun s a => s.NoWrap a ∧ s.NotOvertaken a) start steps)
    (hmoresteps : Meets step (fun s a => s.NoWrap a ∧ s.NotOvertaken a) s more) :
    s.lastSavedCounter ≤ s'.lastSavedCounter ∧
      ∀ ev ∈ log ++ log', ∀ v, ev.counter? = some v → v ≤ s'.lastSavedCounter := by
  have hcovers : s.Covers ([] ++ log) := run_invariant (P := Covers)
    (fun s log a s' out h hG hstep => h.step hG.1 hG.2 hstep)
    ⟨.of_idle hidle, List.forall_mem_nil _, fun w v hv => by rw [hidle w] at hv; cases hv⟩ hsteps hrun
  have hboth := run_invariant (P := fun t log => t.Covers log ∧ s.lastSavedCounter ≤ t.lastSavedCounter)
    (fun t log a t' out h hG hstep => ⟨h.1.step hG.1 hG.2 hstep,
      UInt64.le_trans h.2 (h.1.roomy.step hG.1 hstep).2⟩) ⟨hcovers, UInt64.le_refl _⟩ hmoresteps hmore
  exact ⟨hboth.2, hboth.1.ended⟩

/-- An advance, and then two mints, by the one goroutine. -/
def reservingSteps : List (ClockStep 1) :=
  [[.advanceLamportTo 0 40], .replicate 5 (.go 0), [.nextDot 0, .go 0, .go 0, .park, .nextDot 0, .go 0, .go 0]].flatten

theorem watermark_monotone_and_covering_on_reservingSteps : ∃ s, run step (boot 1 7 0) reservingSteps
        = some (s, [.observed 40, .began 0, .returned 0 41, .began 0, .returned 0 42]) ∧
      7 ≤ s.lastSavedCounter ∧ 42 ≤ s.lastSavedCounter := by
  have hsteps : Meets step (fun s a => s.NoWrap a ∧ s.NotOvertaken a) (boot 1 7 0) reservingSteps := by
    decide +kernel
  obtain ⟨hmono, hcovers⟩ := watermark_monotone_and_covering 1 (boot 1 7 0) (fun _ => rfl) [] reservingSteps _ _ []
    [.observed 40, .began 0, .returned 0 41, .began 0, .returned 0 42] rfl rfl trivial hsteps
  exact ⟨_, rfl, hmono, hcovers (.returned 0 42) (by decide) 42 rfl⟩

/-- One `AdvanceLamportTo` near the end of the counters. -/
def wrappingAdvance : List (ClockStep 1) :=
  .advanceLamportTo 0 0xFFFFFFFFFFFFFDA7 :: .replicate 5 (.go 0)

/-- An `AdvanceLamportTo` that returns while another has raised the clock and not the watermark. -/
def overtakenAdvance : List (ClockStep 2) :=
  [.advanceLamportTo 0 5000, .go 0, .go 0, .advanceLamportTo 1 4000, .go 1]

/-- A counter that the skew bound of the engine admits moves the watermark down; and a counter that is
observed is above the watermark. -/
theorem watermark_can_fall_and_lag :
    0xFFFFFFFFFFFFFDA7 ≤ maxAcceptableDotCounter .sample
        (newEngine 1 (fun _ => 0) 0 (FixedBytes.zero 16) 0xFFFFFFFFFFFFFC17).lamportSnapshot ∧
      (run step (boot 1 0xFFFFFFFFFFFFFC17 0) wrappingAdvance).any
        (fun p => p.1.lastSavedCounter < (boot 1 0xFFFFFFFFFFFFFC17 0).lastSavedCounter) = true ∧
      (run step (boot 2 0 0) overtakenAdvance).any
        (fun p => ClockEvent.observed 4000 ∈ p.2 ∧ p.1.lastSavedCounter < 4000) = true := by
  refine ⟨?_, ?_, ?_⟩
  · decide +kernel
  · decide +kernel
  · decide +kernel

/-! ### The file -/

/-- The value the file has when the worker is done with what it has taken. -/
def settled (s : LamportClock n) : UInt64 :=
  match s.worker with
  | .writing val => val
  | _ => s.disk

/-- The clock is covered by the watermark, or by what a call in flight is about to make of it. -/
structure Backed (s : LamportClock n) (log : List (ClockEvent n)) : Prop where
  roomy : s.Roomy
  ordered : s.Ordered log
  owed : s.lamportCounter ≤ s.lastSavedCounter ∨
    ∃ w v, (s.calls w).owed? = some v ∧ s.lamportCounter ≤ v

namespace Backed

/-- A call that owes the watermark something goes on, or the watermark is beyond it. -/
theorem owed_move (h : s.Backed log) (hle : s.lastSavedCounter ≤ b)
    (howed : ∀ v, (s.calls w).owed? = some v → c.owed? = some v ∨ v ≤ b) :
    s.lamportCounter ≤ b ∨ ∃ u v, (Function.update s.calls w c u).owed? = some v ∧ s.lamportCounter ≤ v := by
  rcases h.owed with hcovered | ⟨u, v, hv, hclock⟩
  · exact .inl (UInt64.le_trans hcovered hle)
  by_cases hu : u = w
  · subst hu
    rcases howed v hv with hc | hb
    · exact .inr ⟨u, v, by rwa [Function.update_self], hclock⟩
    · exact .inl (UInt64.le_trans hclock hb)
  · exact .inr ⟨u, v, by rwa [Function.update_of_ne hu], hclock⟩

/-- The call owes what it owed, or owed nothing. -/
theorem owed_stay (h : s.Backed log) (hw : s.calls w = c')
    (hle : s.lastSavedCounter ≤ b) (howed : c'.owed? = none ∨ c.owed? = c'.owed?) :
    s.lamportCounter ≤ b ∨ ∃ u v, (Function.update s.calls w c u).owed? = some v ∧ s.lamportCounter ≤ v := by
  refine h.owed_move hle fun v hv => .inl ?_
  rw [hw] at hv
  rcases howed with hnone | hsame
  · rw [hnone] at hv
    cases hv
  · exact hsame.trans hv

/-- The watermark is beyond what the call owed. -/
theorem owed_met (h : s.Backed log) {v : UInt64} (hw : s.calls w = c') (hv : c'.owed? = some v)
    (hle : s.lastSavedCounter ≤ b) (hmet : v ≤ b) :
    s.lamportCounter ≤ b ∨ ∃ u v, (Function.update s.calls w c u).owed? = some v ∧ s.lamportCounter ≤ v := by
  refine h.owed_move hle fun u hu => .inr ?_
  rw [hw, hv] at hu
  cases hu
  exact hmet

theorem owed_go (h : s.Backed log) (hwrap : s.NoWrap (.go w)) (hgo : Go s w s' out) :
    s'.lamportCounter ≤ s'.lastSavedCounter ∨ ∃ u v, (s'.calls u).owed? = some v ∧ s'.lamportCounter ≤ v := by
  have hle := (h.roomy.go hwrap hgo).2
  cases hgo with
  | add hw => exact .inr ⟨w, _, by rw [goto_calls_self]; rfl, UInt64.le_refl _⟩
  | covered hw hcovered => exact h.owed_met hw rfl hle hcovered
  | uncovered hw => exact h.owed_stay hw hle (.inr rfl)
  | @reserved c hw hcovered =>
    have hlt := lt_add_window (h.roomy.room w c (by rw [hw]; rfl))
    exact h.owed_met hw rfl hle (UInt64.le_trans (UInt64.le_of_lt hlt) hcovered)
  | loadReserved hw hlt => exact h.owed_stay hw hle (.inr rfl)
  | @reserve c hw =>
    have hlt := lt_add_window (h.roomy.room w c (by rw [hw]; rfl))
    have hmet := h.owed_met (c := .handing c) hw rfl (show s.lastSavedCounter ≤ c + 1000 from hle) (UInt64.le_of_lt hlt)
    dsimp only [goto]
    exact hmet
  | reserveLost hw => exact h.owed_stay hw hle (.inr rfl)
  | hand hw => exact h.owed_stay hw hle (.inl rfl)
  | behind hw hbehind => exact h.owed_stay hw hle (.inl rfl)
  | loadClock hw hlt => exact h.owed_stay hw hle (.inl rfl)
  | raise hw => exact .inr ⟨w, _, by rw [goto_calls_self]; rfl, UInt64.le_refl _⟩
  | raiseLost hw => exact h.owed_stay hw hle (.inl rfl)
  | reached hw hreached => exact h.owed_met hw rfl hle hreached
  | loadCovered hw hlt => exact h.owed_stay hw hle (.inr rfl)
  | @extend r hw =>
    have hlt := lt_add_window (h.roomy.room w r (by rw [hw]; rfl))
    have hmet := h.owed_met (c := .announcing r) hw rfl (show s.lastSavedCounter ≤ r + 1000 from hle) (UInt64.le_of_lt hlt)
    dsimp only [goto]
    exact hmet
  | extendLost hw => exact h.owed_stay hw hle (.inr rfl)
  | announce hw => exact h.owed_stay hw hle (.inl rfl)

theorem step (h : s.Backed log) (hwrap : s.NoWrap a) (hstep : s.step a = some (s', out)) :
    s'.Backed (log ++ out) := by
  refine ⟨(h.roomy.step hwrap hstep).1, h.ordered.step ?_ hstep, ?_⟩
  · intro w hw hminting
    subst hw
    have hroom := hwrap hminting
    exact lt_add_one (by omega)
  · rcases step_cases hstep with ⟨w, rfl, hgo⟩ | hother
    · exact h.owed_go hwrap hgo
    · cases hother with
      | nextDot hw => exact h.owed_stay hw (UInt64.le_refl _) (.inl rfl)
      | advance hw => exact h.owed_stay hw (UInt64.le_refl _) (.inl rfl)
      | park hw => exact h.owed
      | persist hw => exact h.owed
      | close hw hidle => exact h.owed

theorem boot (n : ℕ) (initialCounter disk : UInt64) : (boot n initialCounter disk).Backed [] :=
  ⟨.of_idle fun _ => rfl, .of_idle fun _ => rfl, .inl (UInt64.le_refl _)⟩

theorem ended_le (h : s.Backed log) (hidle : ∀ w, s.calls w = .idle) :
    ∀ ev ∈ log, ∀ v, ev.counter? = some v → v ≤ s.lastSavedCounter := by
  intro ev hev v hv
  refine UInt64.le_trans (h.ordered.ended ev hev v hv) (h.owed.resolve_right fun howed => ?_)
  obtain ⟨w, u, hu, -⟩ := howed
  rw [hidle w] at hu
  cases hu

end Backed

/-- The watermark is in the file, on its way there, in the hands of a call, or not above `base`, what the
node was constructed with. -/
structure Filed (base : UInt64) (s : LamportClock n) (log : List (ClockEvent n)) : Prop where
  backed : s.Backed log
  filed : s.lastSavedCounter ≤ max base s.settled ∨
    ∃ w c, (s.calls w).reserved? = some c ∧ c + 1000 = s.lastSavedCounter

namespace Filed

variable {base : UInt64}

theorem filed_move (h : Filed base s log) {a : UInt64} (hreserved : (s.calls w).reserved? = none) :
    s.lastSavedCounter ≤ max base (settled ({ s with lamportCounter := a }.goto w c)) ∨
      ∃ u v, (Function.update s.calls w c u).reserved? = some v ∧ v + 1000 = s.lastSavedCounter := by
  rcases h.filed with hfiled | ⟨u, v, hv, hlimit⟩
  · exact .inl hfiled
  · have hu : u ≠ w := by
      intro heq
      rw [heq, hreserved] at hv
      cases hv
    exact .inr ⟨u, v, by rwa [Function.update_of_ne hu], hlimit⟩

theorem filed_hand (hhanded : s.HandedOver (.go w)) {c : UInt64} (hw : (s.calls w).reserved? = some c) :
    s.lastSavedCounter ≤ max base (settled ({ s with worker := s.worker.offer (c + 1000) }.goto w .idle)) := by
  have hall : Option.all _ _ = true := hhanded
  rw [hw] at hall
  obtain ⟨hparked, hlimit⟩ := of_decide_eq_true hall
  have hsettled : settled ({ s with worker := s.worker.offer (c + 1000) }.goto w .idle) = c + 1000 := by
    simp [settled, goto, PersistWorker.offer, hparked]
  rw [hsettled, hlimit]
  exact (le_larger _ _).2

theorem filed_go (h : Filed base s log) (hhanded : s.HandedOver (.go w)) (hgo : Go s w s' out) :
    s'.lastSavedCounter ≤ max base s'.settled ∨
      ∃ u c, (s'.calls u).reserved? = some c ∧ c + 1000 = s'.lastSavedCounter := by
  cases hgo with
  | add hw => exact h.filed_move (by rw [hw]; rfl)
  | covered hw hcovered => exact h.filed_move (by rw [hw]; rfl)
  | uncovered hw => exact h.filed_move (by rw [hw]; rfl)
  | reserved hw hcovered => exact h.filed_move (by rw [hw]; rfl)
  | loadReserved hw hlt => exact h.filed_move (by rw [hw]; rfl)
  | reserve hw => exact .inr ⟨w, _, by rw [goto_calls_self]; rfl, rfl⟩
  | reserveLost hw => exact h.filed_move (by rw [hw]; rfl)
  | hand hw => exact .inl (filed_hand hhanded (by rw [hw]; rfl))
  | behind hw hbehind => exact h.filed_move (by rw [hw]; rfl)
  | loadClock hw hlt => exact h.filed_move (by rw [hw]; rfl)
  | raise hw => exact h.filed_move (by rw [hw]; rfl)
  | raiseLost hw => exact h.filed_move (by rw [hw]; rfl)
  | reached hw hreached => exact h.filed_move (by rw [hw]; rfl)
  | loadCovered hw hlt => exact h.filed_move (by rw [hw]; rfl)
  | extend hw => exact .inr ⟨w, _, by rw [goto_calls_self]; rfl, rfl⟩
  | extendLost hw => exact h.filed_move (by rw [hw]; rfl)
  | announce hw => exact .inl (filed_hand hhanded (by rw [hw]; rfl))

theorem step (h : Filed base s log) (hwrap : s.NoWrap a) (hhanded : s.HandedOver a)
    (hstep : s.step a = some (s', out)) : Filed base s' (log ++ out) := by
  refine ⟨h.backed.step hwrap hstep, ?_⟩
  rcases step_cases hstep with ⟨w, rfl, hgo⟩ | hother
  · exact h.filed_go hhanded hgo
  · cases hother with
    | nextDot hw => exact h.filed_move (by rw [hw]; rfl)
    | advance hw => exact h.filed_move (by rw [hw]; rfl)
    | park hw =>
      refine h.filed.imp_left fun hfiled => ?_
      rwa [settled, hw] at hfiled
    | persist hw =>
      refine h.filed.imp_left fun hfiled => ?_
      rwa [settled, hw] at hfiled
    | close hw hidle =>
      refine .inl ?_
      have hsettled : settled { s with disk := max s.lastSavedCounter s.disk } = max s.lastSavedCounter s.disk := by
        rw [settled]
        split
        · next val hval => exact absurd hval (hw val)
        · rfl
      rw [hsettled]
      exact UInt64.le_trans (le_larger _ _).1 (le_larger _ _).2

end Filed

/-- **The file of a drained worker.**  Over every interleaving in which the sums with the window stay in
range and every hand-over finds the worker parked and hands over the current watermark: when no call is in
flight and the worker is not writing, the value in the file is at least every counter that was minted or
observed above the counter a first boot was given.  So is the clock of the next life, if it is given
that counter again or this life was booted from its file. -/
theorem drained_file_covers (n : ℕ) (initialCounter disk : UInt64) (steps : List (ClockStep n)) (s : LamportClock n) (log : List (ClockEvent n))
    (hrun : run step (boot n initialCounter disk) steps = some (s, log))
    (hsteps : Meets step (fun s a => s.NoWrap a ∧ s.HandedOver a) (boot n initialCounter disk) steps)
    (hidle : ∀ w, s.calls w = .idle) (hdrained : ∀ val, s.worker ≠ .writing val) :
    ∀ ev ∈ log, ∀ v, ev.counter? = some v →
      (v ≤ s.disk ∨ disk < initialCounter ∧ v ≤ initialCounter) ∧
      ∀ counter, initialCounter ≤ counter ∨ initialCounter ≤ disk →
        v ≤ (boot n counter s.disk).lamportCounter := by
  set base : UInt64 := if initialCounter ≤ disk then 0 else initialCounter with hbase
  have hstart : (boot n initialCounter disk).lastSavedCounter ≤ max base disk := by
    show (if initialCounter ≤ disk then disk else initialCounter) ≤ max base disk
    split
    · exact (le_larger _ _).2
    · next hfirst =>
      rw [hbase, if_neg hfirst]
      exact (le_larger _ _).1
  have hfiled := run_invariant (P := Filed base) (fun s log a s' out h hG hstep => h.step hG.1 hG.2 hstep)
    ⟨Backed.boot n initialCounter disk, .inl hstart⟩ hsteps hrun
  have hlast : s.lastSavedCounter ≤ max base s.disk := by
    have hsettled : s.settled = s.disk := by
      rw [settled]
      split
      · next val hval => exact absurd hval (hdrained val)
      · rfl
    refine hsettled ▸ hfiled.filed.resolve_right fun hheld => ?_
    obtain ⟨w, c, hc, -⟩ := hheld
    rw [hidle w] at hc
    cases hc
  intro ev hev v hv
  have hle : v ≤ max base s.disk := UInt64.le_trans (hfiled.backed.ended_le hidle ev hev v hv) hlast
  have hsplit : v ≤ s.disk ∨ disk < initialCounter ∧ v ≤ initialCounter := by
    have hlarger : v ≤ if base ≤ s.disk then s.disk else base := hle
    split at hlarger
    · exact .inl hlarger
    · by_cases hboot : initialCounter ≤ disk
      · rw [hbase, if_pos hboot] at hlarger
        exact .inl (UInt64.le_trans hlarger (Nat.zero_le s.disk.toNat))
      · rw [hbase, if_neg hboot] at hlarger
        exact .inr ⟨UInt64.not_le.mp hboot, hlarger⟩
  refine ⟨hsplit, fun counter hcounter => ?_⟩
  rcases hsplit with hfile | ⟨hfirst, hgiven⟩
  · exact UInt64.le_trans hfile (le_larger counter s.disk).2
  · have hagain := hcounter.resolve_right (UInt64.not_le.mpr hfirst)
    exact UInt64.le_trans hgiven (UInt64.le_trans hagain (le_larger counter s.disk).1)

/-- A mint whose reservation is written, in a first life. -/
def handedSteps : List (ClockStep 1) :=
  [[.park, .nextDot 0], .replicate 5 (.go 0), [.persist]].flatten

theorem drained_file_covers_on_handedSteps :
    ∃ s, run step (boot 1 7 0) handedSteps = some (s, [.began 0, .returned 0 8]) ∧ 8 ≤ s.disk := by
  have hsteps : Meets step (fun s a => s.NoWrap a ∧ s.HandedOver a) (boot 1 7 0) handedSteps := by
    decide +kernel
  have hcovers := drained_file_covers 1 7 0 handedSteps _ [.began 0, .returned 0 8] rfl hsteps
    (by decide +kernel) (fun val hval => by cases hval)
  exact ⟨_, rfl, (hcovers (.returned 0 8) (by decide) 8 rfl).1.resolve_right (by decide)⟩

/-- A reservation is dropped because the worker still writes the one before. -/
def droppingSteps : List (ClockStep 2) :=
  [[.park, .nextDot 0], .replicate 5 (.go 0), [.advanceLamportTo 1 1001], .replicate 3 (.go 1), [.nextDot 1],
    .replicate 5 (.go 1), [.persist]].flatten

/-- Two reservations are handed over in the wrong order. -/
def reorderedSteps : List (ClockStep 2) :=
  [[.park, .nextDot 0], .replicate 4 (.go 0), [.advanceLamportTo 1 1500], .replicate 5 (.go 1),
    [.persist, .park, .go 0, .persist]].flatten

/-- With no call in flight and an idle worker, the file is behind a counter that was returned, and the
next life returns it again; or it has fallen behind one that was observed. -/
theorem dropped_value_is_minted_again :
    (run step (boot 2 0 0) droppingSteps).any (fun p => (∀ w, p.1.calls w = .idle) ∧ p.1.worker = .away ∧
        ClockEvent.returned 1 1002 ∈ p.2 ∧ (run step (boot 2 0 p.1.disk) (.nextDot 0 :: .replicate 5 (.go 0))).any
          (fun q => ClockEvent.returned 0 1002 ∈ q.2)) = true ∧
      (run step (boot 2 0 0) reorderedSteps).any (fun p => (∀ w, p.1.calls w = .idle) ∧ p.1.worker = .away ∧
        ClockEvent.observed 1500 ∈ p.2 ∧ p.1.disk = 1001) = true := by
  constructor
  · decide +kernel
  · decide +kernel

/-- **After `Close`** the file covers all that was minted and observed, whatever was dropped.  `Close` is
called with no call in flight. -/
theorem closed_file_covers (n : ℕ) (initialCounter disk : UInt64) (steps : List (ClockStep n))
    (s s' : LamportClock n) (log out : List (ClockEvent n))
    (hrun : run step (boot n initialCounter disk) steps = some (s, log))
    (hsteps : Meets step NoWrap (boot n initialCounter disk) steps) (hclose : s.step .close = some (s', out)) :
    ∀ ev ∈ log, ∀ v, ev.counter? = some v → v ≤ s'.disk := by
  have hbacked := run_invariant (P := Backed) (fun s log a s' out h hG hstep => h.step hG hstep)
    (Backed.boot n initialCounter disk) hsteps hrun
  rcases step_cases hclose with ⟨w, hw, -⟩ | hother
  · cases hw
  · cases hother with
    | close hw hidle =>
      intro ev hev v hv
      exact UInt64.le_trans (hbacked.ended_le hidle ev hev v hv) (le_larger _ _).1

/-- `Close` makes up for the reservation that was dropped. -/
theorem closed_file_covers_on_droppingSteps :
    ∃ s log s', run step (boot 2 0 0) droppingSteps = some (s, log) ∧ s.step .close = some (s', []) ∧ 1002 ≤ s'.disk :=
  ⟨_, _, _, rfl, rfl, closed_file_covers 2 0 0 droppingSteps _ _ _ [] rfl (by decide +kernel) rfl (.returned 1 1002)
    (by decide +kernel) 1002 rfl⟩

end LamportClock

end Sovereign.Sync

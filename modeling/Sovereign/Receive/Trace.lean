import Sovereign.Receive.Outcome

/-!
# What a frame leaves behind

Two questions about a single call of a handler.

* A rejected frame should leave entries and clock as they were.  The batch handlers do; `HandleFrame`
  advances the clock at the clock gate, before any signature is looked at, by a counter it took from
  the unsigned header.  `rejected_untouched_iff` says exactly which rejected frames move the clock.
* An accepted entry should respect the skew bound of the moment the frame arrived.  The batch handlers
  compute the bound from that moment; `HandleFrame` computes it from the clock that the clock gate has
  just set to the counter of this very frame.  `accepted_within_bound_iff` is the exact condition.
-/

namespace Sovereign.Receive

open Lib Sync Identity Attribution Admission

/-! ### Clock lemmas -/

section
variable {R : Runtime}

theorem advanceLamportTo_clock_eq_iff (e : Engine) (c : UInt64) :
    (e.advanceLamportTo R c).lamportCounter = e.lamportCounter ↔ c ≤ e.lamportCounter := by
  rw [Engine.advanceLamportTo]
  split
  · next h => exact ⟨fun _ => h, fun _ => rfl⟩
  · next h =>
    constructor
    · intro heq
      exact (h (UInt64.le_of_eq heq)).elim
    · intro hle
      exact (h hle).elim

theorem advanceLamportTo_le {e : Engine} {c b : UInt64} (hclock : e.lamportCounter ≤ b) (hc : c ≤ b) :
    (e.advanceLamportTo R c).lamportCounter ≤ b := by
  rw [Engine.advanceLamportTo]
  split
  · exact hclock
  · exact hc

theorem join_clock_le {e : Engine} {delta : CRDTDelta} {b : UInt64} (hclock : e.lamportCounter ≤ b)
    (hall : ∀ x ∈ delta.entries, x.entry.dotCounter ≤ b) : (e.join R delta).lamportCounter ≤ b := by
  rw [(Engine.join_clock e delta).1]
  generalize delta.entries = incoming at hall
  induction incoming generalizing e with
  | nil => exact hclock
  | cons x xs ih =>
    apply ih (advanceLamportTo_le hclock (hall x List.mem_cons_self))
    intro y hy
    exact hall y (List.mem_cons_of_mem x hy)

end

/-! ### Rejected frames -/

/-- The entries and the clock are what they were. -/
structure Untouched (e e' : Engine) : Prop where
  shards : e'.shards = e.shards
  clock : e'.lamportCounter = e.lamportCounter

theorem Untouched.refl (e : Engine) : Untouched e e := ⟨rfl, rfl⟩

theorem BatchOutcome.untouched {P : Platform} {r : Receiver} {i : Inbound} {v : Verdict} {e : Engine}
    (h : BatchOutcome P r i v e) (hreject : v ≠ .accept) : Untouched r.engine e := by
  cases h with
  | rejected => exact .refl _
  | accepted => exact (hreject rfl).elim

/-- **A rejected frame leaves no trace** exactly when it is not a relayed event that the gates up to the clock gate
admit, those behind it refuse, and whose counter is ahead of the clock. -/
theorem rejected_untouched_iff (P : Platform) (r : Receiver) (i : Inbound) :
    ((r.handle P i).verdict ≠ .accept → Untouched r.engine (r.handle P i).receiver.engine) ↔
      ∀ now bytes env counter origin, i = .frame now bytes → r.Admits P now bytes env counter origin →
        (∀ x, ¬r.Authenticates P env counter origin x) → counter ≤ r.engine.lamportCounter := by
  cases i with
  | frame now bytes =>
    have hout : FrameOutcome P r now bytes (r.handle P (.frame now bytes)).verdict
        (r.handle P (.frame now bytes)).receiver.engine := (handleFrame_outcome r now bytes).1
    generalize (r.handle P (.frame now bytes)).verdict = v at hout
    generalize (r.handle P (.frame now bytes)).receiver.engine = e at hout
    cases hout with
    | early hv hstop =>
      refine ⟨fun _ now' bytes' env counter origin hframe hadm => ?_, fun _ _ => .refl _⟩
      cases hframe
      exact (hstop env counter origin hadm).elim
    | @late _ env counter origin hv hadm hfail =>
      constructor
      · intro hkept now' bytes' env' counter' origin' hframe hadm' _
        cases hframe
        obtain ⟨rfl, rfl, rfl⟩ := hadm.unique hadm'
        have hreject : v ≠ .accept := by
          rcases hv with rfl | rfl <;> decide
        exact (advanceLamportTo_clock_eq_iff _ _).mp (hkept hreject).clock
      · intro hcond _
        have hle := hcond now bytes env counter origin rfl hadm hfail
        exact ⟨Engine.advanceLamportTo_shards _ _, (advanceLamportTo_clock_eq_iff _ _).mpr hle⟩
    | @accepted env counter origin x hadm hauth =>
      refine ⟨fun _ now' bytes' env' counter' origin' hframe hadm' hfail => ?_, fun _ hreject => (hreject rfl).elim⟩
      cases hframe
      obtain ⟨rfl, rfl, rfl⟩ := hadm.unique hadm'
      exact (hfail x hauth).elim
  | batch bytes =>
    refine ⟨fun _ _ _ _ _ _ hframe => (nomatch hframe), fun _ hreject => ?_⟩
    exact (handleBatchFrame_outcome r bytes).1.untouched hreject
  | hybrid bytes =>
    refine ⟨fun _ _ _ _ _ _ hframe => (nomatch hframe), fun _ hreject => ?_⟩
    exact (handleHybridFrame_outcome r bytes).1.untouched hreject

/-- A frame without hops whose header and event name the same origin and counter. -/
def relayedFrame (origin : NodeID) (dotCounter : UInt64) : Bytes :=
  RelayEnvelope.marshal
    ⟨Capnp.sampleWire origin dotCounter [7], .zero 64, dotCounter, origin, envelopeVersion, []⟩

/-- A frame that nobody signed, from an origin nobody knows, sets the clock. -/
theorem unsigned_frame_moves_clock :
    ∃ (P : Platform) (r : Receiver) (i : Inbound), (∀ pub msg sig, P.crypto.ed25519Verify pub msg sig = false) ∧
      (r.handle P i).verdict = .dropVerify ∧ r.engine.lamportCounter = 0 ∧
      (r.handle P i).receiver.engine.lamportCounter = 0x8000000000000000 := by
  refine ⟨.sample [], .sample fun _ => none,
    .frame ⟨0, 0⟩ (relayedFrame (.zero 16) 0x8000000000000000), ?_, ?_, rfl, ?_⟩
  · intro pub msg sig
    rfl
  · decide +kernel
  · decide +kernel

/-! ### The skew bound -/

def carriedEvents (P : Platform) : Inbound → List DeltaEvent
  | .frame _ bytes =>
    match unmarshalRelayEnvelope bytes with
    | .error _ => []
    | .ok env => (P.capnp.decodeEvent env.innerWire).toOption.toList
  | i =>
    match batchFields i with
    | none => []
    | some (_, wire) => (P.capnp.decodeBatch wire).toOption.getD []

def Offers (P : Platform) (i : Inbound) (x : IncomingEntry) : Prop :=
  ∃ ev ∈ carriedEvents P i, Carries P.runtime ev x

/-- The skew bound of a receiver at the moment a frame arrives. -/
def Receiver.skewBound (P : Platform) (r : Receiver) : UInt64 :=
  maxAcceptableDotCounter P.runtime r.engine.lamportSnapshot

/-- A frame respects a bound: its entries do, and so does the clock behind it. -/
structure Within (P : Platform) (b : UInt64) (i : Inbound) (e : Engine) : Prop where
  entries : ∀ x, Offers P i x → x.entry.dotCounter ≤ b
  clock : e.lamportCounter ≤ b

/-- An accepted batch respects the bound of its arrival. -/
theorem BatchOutcome.within {P : Platform} {r : Receiver} {i : Inbound} {v : Verdict} {e : Engine}
    (h : BatchOutcome P r i v e) (hv : v = .accept) : Within P (r.skewBound P) i e := by
  cases h with
  | rejected hreject => exact (hreject hv).elim
  | @accepted origin wire msg sig pub events pairs hfields hmsg hlookup hsig hdec hpairs =>
    have hevents : carriedEvents P i = events := by
      cases i with
      | frame now bytes => cases hfields
      | batch bytes => simp only [carriedEvents, hfields, hdec]; rfl
      | hybrid bytes => simp only [carriedEvents, hfields, hdec]; rfl
    refine ⟨?_, join_clock_le (lamport_le_maxAcceptable r.engine.lamportSnapshot) ?_⟩
    · rintro x ⟨ev, hev, hcarries⟩
      rw [hevents] at hev
      obtain ⟨y, -, hy, hle⟩ := exists_of_forall₂ hpairs hev
      exact hcarries.unique hy ▸ hle
    · intro x hx
      obtain ⟨ev, -, -, hle⟩ := exists_of_forall₂ hpairs.flip hx
      exact hle

/-- **The skew bound of the arrival bounds what is accepted** exactly when the frame is not a relayed
event that passes all gates with a counter beyond it: the batch paths always respect it. -/
theorem accepted_within_bound_iff (P : Platform) (r : Receiver) (i : Inbound) :
    ((r.handle P i).verdict = .accept →
        Within P (r.skewBound P) i (r.handle P i).receiver.engine) ↔
      ∀ now bytes env counter origin x, i = .frame now bytes → r.Admits P now bytes env counter origin →
        r.Authenticates P env counter origin x → counter ≤ r.skewBound P := by
  cases i with
  | frame now bytes =>
    have hout : FrameOutcome P r now bytes (r.handle P (.frame now bytes)).verdict
        (r.handle P (.frame now bytes)).receiver.engine := (handleFrame_outcome r now bytes).1
    generalize (r.handle P (.frame now bytes)).verdict = v at hout
    generalize (r.handle P (.frame now bytes)).receiver.engine = e at hout
    cases hout with
    | early hv hstop =>
      refine ⟨fun _ now' bytes' env counter origin x hframe hadm => ?_, fun _ haccept => ?_⟩
      · cases hframe
        exact (hstop env counter origin hadm).elim
      · rcases hv with rfl | rfl | rfl <;> cases haccept
    | @late _ env counter origin hv hadm hfail =>
      refine ⟨fun _ now' bytes' env' counter' origin' x hframe hadm' hauth => ?_, fun _ haccept => ?_⟩
      · cases hframe
        obtain ⟨rfl, rfl, rfl⟩ := hadm.unique hadm'
        exact (hfail x hauth).elim
      · rcases hv with rfl | rfl <;> cases haccept
    | @accepted env counter origin x hadm hauth =>
      obtain ⟨ev, hdec, -, hcarries⟩ := hauth.carried
      have hevents : carriedEvents P (.frame now bytes) = [ev] := by
        simp only [carriedEvents, hadm.framed, hdec]
        rfl
      have hoffers : Offers P (.frame now bytes) x := ⟨ev, by simp [hevents], hcarries⟩
      constructor
      · intro hwithin now' bytes' env' counter' origin' _ hframe hadm' _
        cases hframe
        obtain ⟨rfl, rfl, rfl⟩ := hadm.unique hadm'
        exact hauth.counter_eq ▸ (hwithin rfl).entries x hoffers
      · intro hcond _
        have hle := hcond now bytes env counter origin x rfl hadm hauth
        have hclock : r.engine.lamportCounter ≤ r.skewBound P :=
          lamport_le_maxAcceptable r.engine.lamportSnapshot
        refine ⟨?_, join_clock_le (advanceLamportTo_le hclock hle) ?_⟩
        · rintro y ⟨ev', hev', hcarries'⟩
          rw [hevents, List.mem_singleton] at hev'
          subst hev'
          rw [hcarries'.unique hcarries, hauth.counter_eq]
          exact hle
        · intro y hy
          rw [List.mem_singleton.mp hy, hauth.counter_eq]
          exact hle
  | batch bytes =>
    refine ⟨fun _ _ _ _ _ _ _ hframe => (nomatch hframe), fun _ haccept => ?_⟩
    exact (handleBatchFrame_outcome r bytes).1.within haccept
  | hybrid bytes =>
    refine ⟨fun _ _ _ _ _ _ _ hframe => (nomatch hframe), fun _ haccept => ?_⟩
    exact (handleHybridFrame_outcome r bytes).1.within haccept

/-- One signed event pushes the clock of a fresh receiver to the middle of its range, far beyond the
bound of a thousand. -/
theorem signed_frame_passes_bound :
    ∃ (P : Platform) (r : Receiver) (i : Inbound) (x : IncomingEntry),
      (r.handle P i).verdict = .accept ∧ Offers P i x ∧ r.skewBound P = 1000 ∧
      x.entry.dotCounter = 0x8000000000000000 ∧
      (r.handle P i).receiver.engine.lamportCounter = 0x8000000000000000 := by
  refine ⟨.sample [.zero 32], .sample fun _ => some (.zero 32),
    .frame ⟨0, 0⟩ (relayedFrame (.zero 16) 0x8000000000000000),
    ⟨[7], ⟨.zero 32, .zero 16, .zero 16, 0x8000000000000000, 0, 0, 0, 0, 0, 0⟩⟩, ?_, ?_, rfl, rfl, ?_⟩
  · decide +kernel
  · refine ⟨⟨1, some (.replicate 16 0), some [7], some (.replicate 32 0), some (.replicate 16 0), some [],
      0x8000000000000000, 0, 0, 0, 0, 0, 0⟩, ?_, ?_⟩
    · decide +kernel
    · exact ⟨_, rfl, rfl⟩
  · decide +kernel

end Sovereign.Receive

import Sovereign.Receive.Outcome

/-!
# The rate gate inside the pipeline

The rate gate charges a batch to the origin its header names, before any signature is checked, so a
stranger can spend another origin's budget.  That changes no verdict: what is left of a budget and the
high-water mark add up to the initial budget at all times, so a frame is refused if and only if its own
counter has reached the initial budget (`handle_dropRate_iff`).  Whatever was received before makes no
difference to the rate verdict, in particular nothing that the origin did not sign
(`rate_verdict_isolated`).
-/

namespace Sovereign.Receive

open Lib Sync Identity Attribution Admission

variable {P : Platform}

/-! ### The verdict of one call -/

variable (P) in
def RateRefused (hybridVerify : Bool) : Inbound → Prop
  | .frame _ bytes =>
    ∃ env hop counter origin, unmarshalRelayEnvelope bytes = .ok env ∧ env.hops.length ≠ 0 ∧
      readLastHop bytes env.hops.length = .ok hop ∧ readGateFields P env = .ok (counter, origin) ∧
      initialBudget ≤ counter
  | .batch bytes => ∃ env, unmarshalBatchEnvelope bytes = .ok env ∧ initialBudget ≤ env.originSeq
  | .hybrid bytes =>
    hybridVerify = true ∧ ∃ env, unmarshalHybridFrame bytes = .ok env ∧ initialBudget ≤ env.originSeq

theorem openAndApply_ne_dropRate (r : Receiver) (pre : UInt64) (env : RelayEnvelope) (counter : UInt64)
    (origin : NodeID) (bytes : Bytes) :
    (r.openAndApply P pre env counter origin bytes).verdict ≠ .dropRate := by
  rw [Receiver.openAndApply]
  (repeat' split) <;> simp [Receiver.drop]

theorem admitAndOpen_ne_dropRate (r : Receiver) (now : Clocks) (phys : Int64) (env : RelayEnvelope)
    (counter : UInt64) (origin : NodeID) (bytes : Bytes) :
    (r.admitAndOpen P now phys env counter origin bytes).verdict ≠ .dropRate := by
  rw [Receiver.admitAndOpen]
  split
  · simp [Receiver.drop]
  · exact openAndApply_ne_dropRate _ _ _ _ _ _

theorem applyBatch_ne_dropRate (r : Receiver) (wire : Bytes) (seq : UInt64) (frame : Bytes)
    (effects : List Effect) : (r.applyBatch P wire seq frame effects).verdict ≠ .dropRate := by
  rw [Receiver.applyBatch]
  split <;> simp [Receiver.drop]

@[simp] theorem length_rateKey (origin : NodeID) : (Receiver.rateKey origin).length = 32 := by
  simp [Receiver.rateKey, origin.length_bytes]

theorem handleFrame_dropRate_iff {r : Receiver} (h : r.bucket.Funded) (now : Clocks) (bytes : Bytes) :
    (r.handleFrame P now bytes).verdict = .dropRate ↔ RateRefused P r.hybridVerify (.frame now bytes) := by
  rw [Receiver.handleFrame, RateRefused]
  cases henv : unmarshalRelayEnvelope bytes with
  | error err => simp [Receiver.drop]
  | ok env =>
  simp only
  split
  · next hhops =>
    -- without a hop the gate is not asked
    refine iff_of_false ?_ ?_
    · split
      · simp [Receiver.drop]
      · exact admitAndOpen_ne_dropRate _ _ _ _ _ _ _
    · rintro ⟨env', _, _, _, heq, hne, -⟩
      cases heq
      exact hne hhops
  next hhops =>
  cases hhop : readLastHop bytes env.hops.length with
  | error err =>
    refine iff_of_false (by simp [Receiver.drop]) ?_
    rintro ⟨env', _, _, _, heq, -, hhop', -⟩
    cases heq
    cases hhop.symm.trans hhop'
  | ok hop =>
  cases hgate : readGateFields P env with
  | error err =>
    refine iff_of_false (by simp [Receiver.drop]) ?_
    rintro ⟨env', _, _, _, heq, -, -, hgate', -⟩
    cases heq
    cases hgate.symm.trans hgate'
  | ok fields =>
  obtain ⟨counter, origin⟩ := fields
  have hdrop := h.accept_drop_iff P.peerRate hop.1.length_bytes counter
  have hiff : RateRefused P r.hybridVerify (.frame now bytes) ↔ initialBudget ≤ counter := by
    constructor
    · rintro ⟨env', _, counter', _, heq, -, -, hgate', hle⟩
      cases henv.symm.trans heq
      cases hgate.symm.trans hgate'
      exact hle
    · exact fun hle => ⟨env, hop, counter, origin, henv, hhops, hhop, hgate, hle⟩
  rw [RateRefused, henv] at hiff
  rw [hiff, ← hdrop]
  simp only
  split
  · next bucket hbucket => simp [hbucket, Receiver.drop]
  · next bucket hbucket =>
    rw [hbucket]
    exact iff_of_false (admitAndOpen_ne_dropRate _ _ _ _ _ _ _) (by simp)

/-- The two batch handlers share what follows the framing. -/
theorem batchGate_dropRate_iff {b : PeerBucket} (h : b.Funded) (origin : NodeID) (seq : UInt64)
    {kept : PeerBucket → Outcome} (hkept : ∀ bucket, (kept bucket).verdict ≠ .dropRate)
    {dropped : PeerBucket → Outcome} (hdropped : ∀ bucket, (dropped bucket).verdict = .dropRate) :
    (match b.accept P.peerRate (Receiver.rateKey origin) seq with
      | (bucket, .drop) => dropped bucket
      | (bucket, .keep) => kept bucket).verdict = .dropRate ↔ initialBudget ≤ seq := by
  rw [← h.accept_drop_iff P.peerRate (length_rateKey origin) seq]
  split
  · next bucket hbucket => simp [hbucket, hdropped]
  · next bucket hbucket => simp [hbucket, hkept]

/-- **The rate verdict of a call** depends on the frame alone, once the bucket is funded. -/
theorem handle_dropRate_iff {r : Receiver} (h : r.bucket.Funded) (i : Inbound) :
    (r.handle P i).verdict = .dropRate ↔ RateRefused P r.hybridVerify i := by
  cases i with
  | frame now bytes => exact handleFrame_dropRate_iff h now bytes
  | batch bytes =>
    rw [Receiver.handle, Receiver.handleBatchFrame, RateRefused]
    cases henv : unmarshalBatchEnvelope bytes with
    | error err => cases err <;> simp [Receiver.drop]
    | ok env =>
    simp only [Except.ok.injEq, exists_eq_left']
    apply batchGate_dropRate_iff h
    · intro bucket
      (repeat' split) <;> first | exact applyBatch_ne_dropRate _ _ _ _ _ | simp [Receiver.drop]
    · intro bucket
      rfl
  | hybrid bytes =>
    rw [Receiver.handle, Receiver.handleHybridFrame, RateRefused]
    cases hhv : r.hybridVerify with
    | false => simp [Receiver.drop]
    | true =>
    cases henv : unmarshalHybridFrame bytes with
    | error err => cases err <;> simp [Receiver.drop]
    | ok env =>
    simp only [Except.ok.injEq, exists_eq_left', true_and]
    apply batchGate_dropRate_iff h
    · intro bucket
      (repeat' split) <;> first | exact applyBatch_ne_dropRate _ _ _ _ _ | simp [Receiver.drop]
    · intro bucket
      rfl

/-! ### Interleavings -/

variable (P) in
/-- The registered key of an origin verifies a message. -/
def verifiedUnder (dir : Directory) (origin : NodeID) (msg sig : Bytes) : Bool :=
  match dir.lookup origin with
  | none => false
  | some pub => P.crypto.verifyCRDTFrame pub msg sig

variable (P) in
/-- The frame names the origin and carries a signature that the origin's registered key verifies. -/
def carriesSignature (dir : Directory) (origin : NodeID) : Inbound → Bool
  | .frame _ bytes =>
    match unmarshalRelayEnvelope bytes with
    | .error _ => false
    | .ok env =>
      (readGateFields P env).toOption.map Prod.snd == some origin &&
        verifiedUnder P dir origin env.innerWire env.originSig.bytes
  | .batch bytes =>
    match unmarshalBatchEnvelope bytes with
    | .error _ => false
    | .ok env =>
      env.originNodeID == origin && verifiedUnder P dir origin env.batchWire env.originSig.bytes
  | .hybrid bytes =>
    match unmarshalHybridFrame bytes with
    | .error _ => false
    | .ok env =>
      env.originNodeID == origin && verifiedUnder P dir origin
        (P.crypto.hashBatchWireToFrame120 env.batchWire).bytes env.edSig.bytes

/-- A receiver as the node builds it, under either setting of `hybridVerify`. -/
def Receiver.boot (dir : Directory) (engine : Engine) (budget : ℤ) (hybridVerify : Bool) : Receiver :=
  { Receiver.new .new dir engine budget with hybridVerify := hybridVerify }

/-- **Isolation between origins**: after any interleaving, a frame gets the rate verdict that it would
get if only the frames with a valid signature of `origin` had come; and the frames without one change
nothing. -/
theorem rate_verdict_isolated (P : Platform) (dir : Directory) (engine : Engine) (budget : ℤ)
    (hybridVerify : Bool) (origin : NodeID) (fs : List Inbound) (f : Inbound) :
    let r := Receiver.boot dir engine budget hybridVerify
    ((((r.handleAll P fs).handle P f).verdict = .dropRate ↔
        ((r.handleAll P (fs.filter (carriesSignature P dir origin))).handle P f).verdict = .dropRate)) ∧
      (((r.handleAll P (fs.filter fun i => !carriesSignature P dir origin i)).handle P f).verdict
          = .dropRate ↔ (r.handle P f).verdict = .dropRate) := by
  intro r
  have hverdict : ∀ is : List Inbound, ((r.handleAll P is).handle P f).verdict = .dropRate ↔
      RateRefused P r.hybridVerify f := by
    intro is
    rw [handle_dropRate_iff (handleAll_funded PeerBucket.funded_new is),
      (handleAll_sameSetup r is).hybridVerify]
  exact ⟨(hverdict _).trans (hverdict _).symm, (hverdict _).trans (hverdict []).symm⟩

end Sovereign.Receive

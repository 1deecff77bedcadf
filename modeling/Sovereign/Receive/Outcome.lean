import Sovereign.Receive.Receiver

/-!
# Everything a frame can do

Each handler of the receive pipeline ends in one of a few ways.  `FrameOutcome` and `BatchOutcome` list
them, with what is known at each end; the theorems of the pipeline are case analyses over these, and no
later proof opens a handler.

`Inbound` puts the three handlers under one roof: a frame with the handler it is given to.
-/

namespace Sovereign.Receive

open Lib Sync Identity Attribution Admission

inductive Inbound where
  | frame (now : Clocks) (bytes : Bytes)
  | batch (bytes : Bytes)
  | hybrid (bytes : Bytes)

variable (P : Platform)

def Receiver.handle (r : Receiver) : Inbound → Outcome
  | .frame now bytes => r.handleFrame P now bytes
  | .batch bytes => r.handleBatchFrame P bytes
  | .hybrid bytes => r.handleHybridFrame P bytes

/-- A frame passes the gates of `HandleFrame` before the signatures: framing, with hops the rate gate of the last one,
and the clock gate, with the time of the last hop or else that of the receiver. -/
structure Receiver.Admits (r : Receiver) (now : Clocks) (bytes : Bytes) (env : RelayEnvelope) (counter : UInt64)
    (origin : NodeID) : Prop where
  framed : unmarshalRelayEnvelope bytes = .ok env
  gate : readGateFields P env = .ok (counter, origin)
  kept : ∃ phys, ¬maxDriftEpsilon < phys - now.cap ∧ if env.hops.length = 0 then phys = now.receiver else
    ∃ pub, readLastHop bytes env.hops.length = .ok (pub, phys) ∧
      (r.bucket.accept P.peerRate pub.bytes counter).2 = .keep

theorem Receiver.Admits.unique {P : Platform} {r : Receiver} {now : Clocks} {bytes : Bytes}
    {env env' : RelayEnvelope} {counter counter' : UInt64} {origin origin' : NodeID}
    (h : r.Admits P now bytes env counter origin) (h' : r.Admits P now bytes env' counter' origin') :
    env' = env ∧ counter' = counter ∧ origin' = origin := by
  cases h.framed.symm.trans h'.framed
  cases h.gate.symm.trans h'.gate
  exact ⟨rfl, rfl, rfl⟩

/-- An envelope passes the gates behind: the hops verify, the directory has a key of the origin that verifies the inner
wire, and this is a current event that carries an entry of the counter and the origin at the gates. -/
structure Receiver.Authenticates (r : Receiver) (env : RelayEnvelope) (counter : UInt64) (origin : NodeID)
    (x : IncomingEntry) : Prop where
  opened : env.openHops P.crypto r.maxHops = .ok env.innerWire
  signed : ∃ pub, r.dir.lookup origin = some pub ∧ originVerified P r pub env.innerWire env.originSig = true
  carried : ∃ ev, P.capnp.decodeEvent env.innerWire = .ok ev ∧ ev.version = crdtDeltaEventWireVersion ∧
    Carries P.runtime ev x
  counter_eq : x.entry.dotCounter = counter
  origin_eq : x.entry.originNodeID = origin

/-- What a handler leaves alone. -/
structure Receiver.SameSetup (r r' : Receiver) : Prop where
  dir : r'.dir = r.dir
  maxHops : r'.maxHops = r.maxHops
  hybridVerify : r'.hybridVerify = r.hybridVerify

theorem Receiver.SameSetup.refl (r : Receiver) : r.SameSetup r := ⟨rfl, rfl, rfl⟩

/-- The ends of `HandleFrame`: before the clock gate has let the frame pass, behind it, or at the very
end. -/
inductive FrameOutcome (r : Receiver) (now : Clocks) (bytes : Bytes) : Verdict → Engine → Prop
  | early {v : Verdict} (hv : v = .dropMalformed ∨ v = .dropRate ∨ v = .dropClock)
      (hstop : ∀ env counter origin, ¬r.Admits P now bytes env counter origin) : FrameOutcome r now bytes v r.engine
  | late {v : Verdict} {env : RelayEnvelope} {counter : UInt64} {origin : NodeID}
      (hv : v = .dropDepth ∨ v = .dropVerify) (hadm : r.Admits P now bytes env counter origin)
      (hfail : ∀ x, ¬r.Authenticates P env counter origin x) :
      FrameOutcome r now bytes v (r.engine.advanceLamportTo P.runtime counter)
  | accepted {env : RelayEnvelope} {counter : UInt64} {origin : NodeID} {x : IncomingEntry}
      (hadm : r.Admits P now bytes env counter origin) (hauth : r.Authenticates P env counter origin x) :
      FrameOutcome r now bytes .accept
        ((r.engine.advanceLamportTo P.runtime counter).join P.runtime ⟨origin, [x]⟩)

/-- The origin and the wire of a batch, classical or hybrid. -/
def batchFields : Inbound → Option (NodeID × Bytes)
  | .frame _ _ => none
  | .batch bytes =>
    (unmarshalBatchEnvelope bytes).toOption.map fun env => (env.originNodeID, env.batchWire)
  | .hybrid bytes =>
    (unmarshalHybridFrame bytes).toOption.map fun env => (env.originNodeID, env.batchWire)

/-- What the origin of a batch signs: the wire, or the 120 bytes derived from it. -/
def SignsBatch (wire msg : Bytes) : Prop :=
  msg = wire ∨ msg = (P.crypto.hashBatchWireToFrame120 wire).bytes

/-- The ends of the two batch handlers: rejected without a trace in the engine, or joined under a
checked signature of the origin that the header names. -/
inductive BatchOutcome (r : Receiver) (i : Inbound) : Verdict → Engine → Prop
  | rejected {v : Verdict} (hv : v ≠ .accept) : BatchOutcome r i v r.engine
  | accepted {origin : NodeID} {wire msg sig : Bytes} {pub : PublicKey} {events : List DeltaEvent}
      {pairs : List IncomingEntry} (hfields : batchFields i = some (origin, wire))
      (hmsg : SignsBatch P wire msg) (hlookup : r.dir.lookup origin = some pub)
      (hsig : P.crypto.verifyCRDTFrame pub msg sig = true)
      (hdec : P.capnp.decodeBatch wire = .ok events)
      (hpairs : List.Forall₂ (fun ev x => Carries P.runtime ev x ∧
        x.entry.dotCounter ≤ maxAcceptableDotCounter P.runtime r.engine.lamportSnapshot) events pairs) :
      BatchOutcome r i .accept (r.engine.join P.runtime ⟨batchOrigin pairs, pairs⟩)

/-- A handler ends in one of the outcomes `O`; the setup stays as it was, and a funded bucket stays funded. -/
structure Yields (O : Verdict → Engine → Prop) (r : Receiver) (out : Outcome) : Prop where
  outcome : O out.verdict out.receiver.engine
  same : r.SameSetup out.receiver
  funded : r.bucket.Funded → out.receiver.bucket.Funded

variable {P}

/-! ### `HandleFrame` -/

variable {r : Receiver} {origin : NodeID} {i : Inbound} {pub : PublicKey} {env : RelayEnvelope}
  {counter : UInt64} {now : Clocks} {bytes : Bytes} {v : Verdict}

theorem originVerified_classical {msg : Bytes} {sig : OriginSig}
    (h : originVerified P r pub msg sig = true) : P.crypto.verifyCRDTFrame pub msg sig.bytes = true := by
  rw [originVerified] at h
  split at h
  · simp at h
  · exact h

/-- The gate fields of an event that was joined are its own. -/
theorem readGateFieldsFromCapnp_eq {wire : Bytes} {ev : DeltaEvent} {x : IncomingEntry}
    (hdec : P.capnp.decodeEvent wire = .ok ev) (hcarries : Carries P.runtime ev x) :
    readGateFieldsFromCapnp P wire = .ok (x.entry.dotCounter, x.entry.originNodeID) := by
  obtain ⟨-, hcounter, horigin⟩ := hcarries.dot_eq
  rw [readGateFieldsFromCapnp, hdec]
  simp only [horigin, dif_pos x.entry.originNodeID.length_bytes, hcounter]

/-- Header and inner fields agree exactly when the cross-check passes, and when there is no header copy. -/
theorem crossCheck_iff {fields : UInt64 × NodeID} (hgate : readGateFields P env = .ok (counter, origin))
    (hinner : readGateFieldsFromCapnp P env.innerWire = .ok fields) :
    (if env.version = envelopeVersion then crossCheckGateFields P env env.innerWire else .ok ()) = .ok () ↔
      fields = (counter, origin) := by
  rw [readGateFields] at hgate
  by_cases hver : env.version = envelopeVersion
  · rw [if_pos hver] at hgate ⊢
    cases hgate
    rw [crossCheckGateFields, hinner, Prod.ext_iff, eq_comm (a := fields.1), eq_comm (a := fields.2)]
    simp only
    split
    · next hcounter => simp [hcounter]
    · split
      · next horigin => simp [horigin]
      · next hcounter horigin => simp [not_not.mp hcounter, not_not.mp horigin]
  · rw [if_neg hver, hinner] at hgate
    simpa [hver] using hgate

theorem Yields.drop {O : Verdict → Engine → Prop} {r' : Receiver} (hsame : r.SameSetup r')
    (hfunded : r.bucket.Funded → r'.bucket.Funded) (h : O v r'.engine) (reason : DropReason) :
    Yields O r (r'.drop v reason) := ⟨h, hsame, hfunded⟩

theorem openAndApply_outcome (hadm : r.Admits P now bytes env counter origin) {bucket : PeerBucket}
    (hfunded : r.bucket.Funded → bucket.Funded) (pre : UInt64) :
    Yields (FrameOutcome P r now bytes) r
      ({ r with bucket := bucket, engine := r.engine.advanceLamportTo P.runtime counter }.openAndApply P pre env counter
        origin bytes) := by
  have hlate : ∀ {v : Verdict} {reason : DropReason}, v = .dropDepth ∨ v = .dropVerify →
      (∀ x, ¬r.Authenticates P env counter origin x) → Yields (FrameOutcome P r now bytes) r
        ({ r with bucket := bucket, engine := r.engine.advanceLamportTo P.runtime counter }.drop v reason) :=
    fun hv hfail => ⟨.late hv hadm hfail, ⟨rfl, rfl, rfl⟩, hfunded⟩
  rw [Receiver.openAndApply]
  split
  · next hopen => exact hlate (.inl rfl) fun x hx => by cases hopen.symm.trans hx.opened
  · next hopen => exact hlate (.inr rfl) fun x hx => by cases hopen.symm.trans hx.opened
  next inner hopen =>
  obtain rfl : inner = env.innerWire := openHops_ok hopen
  split
  · next hlookup =>
    refine hlate (.inr rfl) fun x hx => ?_
    obtain ⟨pub, hpub, -⟩ := hx.signed
    cases hlookup.symm.trans hpub
  next pub hlookup =>
  split
  · next hsig =>
    have hsig : (!originVerified P r pub env.innerWire env.originSig) = true := hsig
    refine hlate (.inr rfl) fun x hx => ?_
    obtain ⟨pub', hpub, hverified⟩ := hx.signed
    cases hlookup.symm.trans hpub
    simp [hverified] at hsig
  next hsig =>
  have hsig : ¬(!originVerified P r pub env.innerWire env.originSig) = true := hsig
  -- an entry that the event carries passes the cross-check, and the bound of the clock that was advanced to it
  have hpass : ∀ x, r.Authenticates P env counter origin x →
      (if env.version = envelopeVersion then crossCheckGateFields P env env.innerWire else .ok ()) = .ok () ∧
        (r.engine.advanceLamportTo P.runtime counter).applyCRDTDeltaEvent P.runtime P.capnp env.innerWire =
          .ok ((r.engine.advanceLamportTo P.runtime counter).join P.runtime ⟨x.entry.originNodeID, [x]⟩) := by
    intro x hx
    obtain ⟨ev, hdec, hver, hcarries⟩ := hx.carried
    refine ⟨(crossCheck_iff hadm.gate (readGateFieldsFromCapnp_eq hdec hcarries)).mpr
      (Prod.ext hx.counter_eq hx.origin_eq), Engine.applyCRDTDeltaEvent_ok_iff.mpr
        ⟨ev, x, hdec, hver, hcarries, hx.counter_eq ▸ ?_, rfl⟩⟩
    exact UInt64.le_trans (Engine.advanceLamportTo_ge r.engine _).2 (lamport_le_maxAcceptable (Engine.lamportSnapshot _))
  split
  · next hcross => exact hlate (.inr rfl) fun x hx => by cases hcross.symm.trans (hpass x hx).1
  next hcross =>
  split
  · next happly => exact hlate (.inr rfl) fun x hx => by cases happly.symm.trans (hpass x hx).2
  next engine happly =>
  obtain ⟨ev, x, hdec, hver, hcarries, -, rfl⟩ := Engine.applyCRDTDeltaEvent_ok_iff.mp happly
  obtain ⟨hcounter, horigin⟩ :=
    Prod.mk.inj ((crossCheck_iff hadm.gate (readGateFieldsFromCapnp_eq hdec hcarries)).mp hcross)
  have hverified : originVerified P r pub env.innerWire env.originSig = true := by simpa using hsig
  refine ⟨?_, ⟨rfl, rfl, rfl⟩, hfunded⟩
  rw [horigin]
  exact .accepted hadm ⟨hopen, ⟨pub, hlookup, hverified⟩, ⟨ev, hdec, hver, hcarries⟩, hcounter, horigin⟩

/-- The clock gate, for a frame that has passed the gates before it exactly if the time at the gate is `phys`. -/
theorem admitAndOpen_outcome {phys : Int64} {bucket : PeerBucket}
    (hadm : ∀ env' counter' origin', r.Admits P now bytes env' counter' origin' ↔
      (env', counter', origin') = (env, counter, origin) ∧ ¬maxDriftEpsilon < phys - now.cap)
    (hfunded : r.bucket.Funded → bucket.Funded) :
    Yields (FrameOutcome P r now bytes) r
      ({ r with bucket := bucket }.admitAndOpen P now phys env counter origin bytes) := by
  rw [Receiver.admitAndOpen, hlcAdmit]
  by_cases hdrift : maxDriftEpsilon < phys - now.cap
  · rw [if_pos hdrift]
    exact ⟨.early (.inr (.inr rfl)) fun env' counter' origin' h => ((hadm ..).mp h).2 hdrift, ⟨rfl, rfl, rfl⟩, hfunded⟩
  · rw [if_neg hdrift]
    exact openAndApply_outcome ((hadm ..).mpr ⟨rfl, hdrift⟩) hfunded _

section
variable (henv : unmarshalRelayEnvelope bytes = .ok env) (hgate : readGateFields P env = .ok (counter, origin))
  (env' : RelayEnvelope) (counter' : UInt64) (origin' : NodeID)
include henv hgate

theorem admits_iff_of_no_hops (hhops : env.hops.length = 0) : r.Admits P now bytes env' counter' origin' ↔
    (env', counter', origin') = (env, counter, origin) ∧ ¬maxDriftEpsilon < now.receiver - now.cap := by
  refine ⟨fun h => ?_, ?_⟩
  · cases henv.symm.trans h.framed
    cases hgate.symm.trans h.gate
    obtain ⟨phys, hdrift, hphys⟩ := h.kept
    rw [if_pos hhops] at hphys
    exact ⟨rfl, hphys ▸ hdrift⟩
  · rintro ⟨heq, hdrift⟩
    cases heq
    exact ⟨henv, hgate, _, hdrift, by rw [if_pos hhops]⟩

theorem admits_iff_of_hops (hhops : env.hops.length ≠ 0) {pub : FixedBytes 32} {wall : Int64}
    (hhop : readLastHop bytes env.hops.length = .ok (pub, wall)) : r.Admits P now bytes env' counter' origin' ↔
    (env', counter', origin') = (env, counter, origin) ∧ ¬maxDriftEpsilon < wall - now.cap ∧
      (r.bucket.accept P.peerRate pub.bytes counter).2 = .keep := by
  refine ⟨fun h => ?_, ?_⟩
  · cases henv.symm.trans h.framed
    cases hgate.symm.trans h.gate
    obtain ⟨phys, hdrift, hphys⟩ := h.kept
    rw [if_neg hhops] at hphys
    obtain ⟨pub', hhop', hkeep⟩ := hphys
    cases hhop.symm.trans hhop'
    exact ⟨rfl, hdrift, hkeep⟩
  · rintro ⟨heq, hdrift, hkeep⟩
    cases heq
    exact ⟨henv, hgate, _, hdrift, by rw [if_neg hhops]; exact ⟨pub, hhop, hkeep⟩⟩

end

/-- **Everything `HandleFrame` can do.** -/
theorem handleFrame_outcome (r : Receiver) (now : Clocks) (bytes : Bytes) :
    Yields (FrameOutcome P r now bytes) r (r.handleFrame P now bytes) := by
  have hself : ∀ reason, (∀ env counter origin, ¬r.Admits P now bytes env counter origin) →
      Yields (FrameOutcome P r now bytes) r (r.drop .dropMalformed reason) :=
    fun reason hstop => .drop (.refl r) id (.early (.inl rfl) hstop) reason
  rw [Receiver.handleFrame]
  split
  · next herr => exact hself _ fun _ _ _ h => by cases herr.symm.trans h.framed
  next env henv =>
  split
  · next hhops =>
    -- no hops: the rate gate is not asked
    split
    · next herr =>
      refine hself _ fun _ _ _ h => ?_
      cases henv.symm.trans h.framed
      cases herr.symm.trans h.gate
    next counter origin hgate =>
    exact admitAndOpen_outcome (admits_iff_of_no_hops henv hgate · · · hhops) (id : r.bucket.Funded → _)
  next hhops =>
  split
  · next herr =>
    refine hself _ fun _ _ _ h => ?_
    cases henv.symm.trans h.framed
    obtain ⟨phys, -, hphys⟩ := h.kept
    rw [if_neg hhops] at hphys
    obtain ⟨pub, hhop, -⟩ := hphys
    cases herr.symm.trans hhop
  next pub wall hhop =>
  split
  · next herr =>
    refine hself _ fun _ _ _ h => ?_
    cases henv.symm.trans h.framed
    cases herr.symm.trans h.gate
  next counter origin hgate =>
  have hkept (env' counter' origin') : r.Admits P now bytes env' counter' origin' ↔ _ :=
    admits_iff_of_hops henv hgate env' counter' origin' hhops hhop
  have hfunded : r.bucket.Funded → (r.bucket.accept P.peerRate pub.bytes counter).1.Funded :=
    fun h => h.accept pub.bytes counter
  split
  · next bucket hbucket =>
    rw [hbucket] at hfunded hkept
    have hstop : ∀ env counter origin, ¬r.Admits P now bytes env counter origin := fun _ _ _ h => by
      cases ((hkept ..).mp h).2.2
    exact ⟨.early (.inr (.inl rfl)) hstop, ⟨rfl, rfl, rfl⟩, hfunded⟩
  · next bucket hbucket =>
    rw [hbucket] at hfunded hkept
    exact admitAndOpen_outcome (fun env' counter' origin' => (hkept ..).trans (by simp)) hfunded

/-! ### The batch handlers -/

theorem applyBatch_outcome {wire msg sig : Bytes} (hfields : batchFields i = some (origin, wire))
    (hmsg : SignsBatch P wire msg) (hlookup : r.dir.lookup origin = some pub)
    (hsig : P.crypto.verifyCRDTFrame pub msg sig = true) (r' : Receiver) (hsame : r.SameSetup r')
    (hfunded : r.bucket.Funded → r'.bucket.Funded) (hengine : r'.engine = r.engine) (seq : UInt64)
    (frame : Bytes) (effects : List Effect) :
    Yields (BatchOutcome P r i) r (r'.applyBatch P wire seq frame effects) := by
  rw [Receiver.applyBatch]
  split
  · exact .drop hsame hfunded (hengine ▸ .rejected (by decide)) _
  · next engine happly =>
    rw [hengine] at happly
    obtain ⟨events, pairs, hdec, hpairs, rfl⟩ := Engine.applyCRDTDeltaBatch_ok happly
    exact ⟨.accepted hfields hmsg hlookup hsig hdec hpairs,
      ⟨hsame.dir, hsame.maxHops, hsame.hybridVerify⟩, hfunded⟩

theorem lookup_of_lookupBoth {d : Directory}
    {pqPub : Option PQPublicKey} (h : d.lookupBoth origin = some (pub, pqPub)) :
    d.lookup origin = some pub := by
  obtain ⟨edPub, hed, heq⟩ := Option.map_eq_some_iff.mp h
  rw [Directory.lookup, hed, (Prod.mk.inj heq).1]

/-- **Everything `HandleBatchFrame` can do.** -/
theorem handleBatchFrame_outcome (r : Receiver) (bytes : Bytes) :
    Yields (BatchOutcome P r (.batch bytes)) r (r.handleBatchFrame P bytes) := by
  rw [Receiver.handleBatchFrame]
  split
  · exact .drop (.refl r) id (.rejected (by decide)) _
  · exact .drop (.refl r) id (.rejected (by decide)) _
  next env henv =>
  have hfields : batchFields (.batch bytes) = some (env.originNodeID, env.batchWire) := by
    rw [batchFields, henv]
    rfl
  have hfunded : r.bucket.Funded → (r.bucket.accept P.peerRate (Receiver.rateKey env.originNodeID)
      env.originSeq).1.Funded := fun h => h.accept _ _
  split
  · next bucket hbucket =>
    rw [hbucket] at hfunded
    exact ⟨.rejected (v := .dropRate) (by decide), ⟨rfl, rfl, rfl⟩, hfunded⟩
  next bucket hbucket =>
  rw [hbucket] at hfunded
  have hsame : r.SameSetup { r with bucket := bucket } := ⟨rfl, rfl, rfl⟩
  simp only
  split
  · exact .drop hsame hfunded (.rejected (by decide)) _
  next pub hlookup =>
  split
  · exact .drop hsame hfunded (.rejected (by decide)) _
  next hsig =>
  have hverified : P.crypto.verifyCRDTFrame pub env.batchWire env.originSig.bytes = true := by
    apply originVerified_classical (r := { r with bucket := bucket })
    simpa using hsig
  exact applyBatch_outcome hfields (.inl rfl) hlookup hverified _ hsame hfunded rfl _ _ _

/-- **Everything `HandleHybridFrame` can do.** -/
theorem handleHybridFrame_outcome (r : Receiver) (bytes : Bytes) :
    Yields (BatchOutcome P r (.hybrid bytes)) r (r.handleHybridFrame P bytes) := by
  rw [Receiver.handleHybridFrame]
  split
  · exact .drop (.refl r) id (.rejected (by decide)) _
  split
  · exact .drop (.refl r) id (.rejected (by decide)) _
  · exact .drop (.refl r) id (.rejected (by decide)) _
  next env henv =>
  have hfields : batchFields (.hybrid bytes) = some (env.originNodeID, env.batchWire) := by
    rw [batchFields, henv]
    rfl
  have hfunded : r.bucket.Funded → (r.bucket.accept P.peerRate (Receiver.rateKey env.originNodeID)
      env.originSeq).1.Funded := fun h => h.accept _ _
  split
  · next bucket hbucket =>
    rw [hbucket] at hfunded
    exact ⟨.rejected (v := .dropRate) (by decide), ⟨rfl, rfl, rfl⟩, hfunded⟩
  next bucket hbucket =>
  rw [hbucket] at hfunded
  have hsame : r.SameSetup { r with bucket := bucket } := ⟨rfl, rfl, rfl⟩
  simp only
  split
  · exact .drop hsame hfunded (.rejected (by decide)) _
  next pub pqPub hlookup =>
  split
  · exact .drop hsame hfunded (.rejected (by decide)) _
  next hsig =>
  have hverified := P.crypto.verifyBatchHybrid_classical (by simpa using hsig)
  exact applyBatch_outcome hfields (.inr rfl) (lookup_of_lookupBoth hlookup) hverified _ hsame hfunded rfl _ _ _

/-! ### All three -/

theorem handle_sameSetup (r : Receiver) (i : Inbound) : r.SameSetup (r.handle P i).receiver := by
  cases i with
  | frame now bytes => exact (handleFrame_outcome r now bytes).same
  | batch bytes => exact (handleBatchFrame_outcome r bytes).same
  | hybrid bytes => exact (handleHybridFrame_outcome r bytes).same

theorem handle_funded (h : r.bucket.Funded) (i : Inbound) : (r.handle P i).receiver.bucket.Funded := by
  cases i with
  | frame now bytes => exact (handleFrame_outcome r now bytes).funded h
  | batch bytes => exact (handleBatchFrame_outcome r bytes).funded h
  | hybrid bytes => exact (handleHybridFrame_outcome r bytes).funded h

theorem FrameOutcome.grows (hwf : r.engine.WF P.runtime) {e : Engine} (h : FrameOutcome P r now bytes v e) :
    e.WF P.runtime ∧ r.engine.contents P.runtime ⊆ e.contents P.runtime := by
  cases h with
  | early => exact ⟨hwf, subset_rfl⟩
  | late => exact ⟨hwf.advance _, (Engine.contents_advance ..).ge⟩
  | accepted =>
    exact ⟨(Engine.join_spec (hwf.advance _) _).1,
      (Engine.contents_advance ..).ge.trans (Engine.contents_subset_join (hwf.advance _) _)⟩

theorem BatchOutcome.grows (hwf : r.engine.WF P.runtime) {e : Engine} (h : BatchOutcome P r i v e) :
    e.WF P.runtime ∧ r.engine.contents P.runtime ⊆ e.contents P.runtime := by
  cases h with
  | rejected => exact ⟨hwf, subset_rfl⟩
  | accepted => exact ⟨(Engine.join_spec hwf _).1, Engine.contents_subset_join hwf _⟩

theorem handle_grows (hwf : r.engine.WF P.runtime) (i : Inbound) :
    (r.handle P i).receiver.engine.WF P.runtime ∧
      r.engine.contents P.runtime ⊆ (r.handle P i).receiver.engine.contents P.runtime := by
  cases i with
  | frame now bytes => exact (handleFrame_outcome r now bytes).1.grows hwf
  | batch bytes => exact (handleBatchFrame_outcome r bytes).1.grows hwf
  | hybrid bytes => exact (handleHybridFrame_outcome r bytes).1.grows hwf

/-! ### Runs -/

variable (P) in
/-- Frames given to the handlers one after the other. -/
def Receiver.handleAll (r : Receiver) (is : List Inbound) : Receiver :=
  is.foldl (fun r i => (r.handle P i).receiver) r

theorem handleAll_sameSetup (r : Receiver) (is : List Inbound) : r.SameSetup (r.handleAll P is) := by
  induction is generalizing r with
  | nil => exact .refl r
  | cons i is ih =>
    have hstep := handle_sameSetup (P := P) r i
    have hrest := ih (r.handle P i).receiver
    exact ⟨hrest.dir.trans hstep.dir, hrest.maxHops.trans hstep.maxHops,
      hrest.hybridVerify.trans hstep.hybridVerify⟩

theorem handleAll_funded (h : r.bucket.Funded) (is : List Inbound) : (r.handleAll P is).bucket.Funded := by
  induction is generalizing r with
  | nil => exact h
  | cons i is ih => exact ih (handle_funded h i)

theorem handleAll_grows (hwf : r.engine.WF P.runtime) (is : List Inbound) :
    (r.handleAll P is).engine.WF P.runtime ∧
      r.engine.contents P.runtime ⊆ (r.handleAll P is).engine.contents P.runtime := by
  induction is generalizing r with
  | nil => exact ⟨hwf, subset_rfl⟩
  | cons i is ih =>
    obtain ⟨hwf', hstep⟩ := handle_grows hwf i
    obtain ⟨hwf'', hrest⟩ := ih hwf'
    exact ⟨hwf'', hstep.trans hrest⟩

/-- **What was received is never lost**, whatever arrives later, and the setup stays. -/
theorem received_only_grows (P : Platform) (r : Receiver) (b : Replica) (is js : List Inbound) :
    let run := { r with engine := b.boot }.handleAll P
    (run is).engine.contents P.runtime ⊆ (run (is ++ js)).engine.contents P.runtime ∧
      (run is).SameSetup (run (is ++ js)) := by
  intro run
  have hwf := (handleAll_grows (P := P) (r := { r with engine := b.boot }) b.wf_boot is).1
  rw [show run (is ++ js) = (run is).handleAll P js from List.foldl_append]
  exact ⟨(handleAll_grows hwf js).2, handleAll_sameSetup _ js⟩

end Sovereign.Receive

import Sovereign.Sync.Invariant

/-!
# From wire events to entries

`crdt_reconstruct.go`, `crdt_reconstruct_skew.go`, `crdt_apply.go` and `crdt_apply_batch.go`: an event
of the wire is turned into an entry, checked and joined.

* `reconstructEntry` — length of every fixed-size field, the origin vouches for its own dots, the
  digest is that of the payload;
* `maxAcceptableDotCounter`, `reconstructEntryWithSkewBound` — the bound on how far ahead of the
  receiver's clock a counter may be, computed from a snapshot of the engine;
* `applyCRDTDeltaEvent`, `applyCRDTDeltaBatch` — decode, check, join; a batch is joined as a whole or
  not at all.

Cap'n Proto itself is outside: `Capnp` is what its readers return for a byte string.  A pointer field
that cannot be read is `none`.
-/

namespace Sovereign.Sync

open Lib

/-! ### Wire events -/

/-- `CRDTDeltaEvent` as its accessors return it; `none` is a read error. -/
structure DeltaEvent where
  version : UInt16
  originNodeID : Option Bytes
  entityId : Option Bytes
  payloadDigest : Option Bytes
  dotNodeID : Option Bytes
  payloadBytes : Option Bytes
  dotCounter : UInt64
  h3Index : UInt64
  systemTime : Int64
  validTimeStart : Int64
  validTimeEnd : Int64
  assertionTime : Int64
  decisionTime : Int64
deriving DecidableEq

/-- Why a message could not be decoded: `capnp.Unmarshal`, the root pointer, the events list. -/
inductive DecodeError where
  | unmarshal
  | readRoot
  | readEvents
deriving DecidableEq

/-- What the Cap'n Proto readers make of a byte string. -/
structure Capnp where
  decodeEvent : Bytes → Except DecodeError DeltaEvent
  decodeBatch : Bytes → Except DecodeError (List DeltaEvent)

/-- `LamportSnapshot`; rate and horizon are float64 bits. -/
structure LamportSnapshot where
  lamport : UInt64
  observedInboundRate : UInt64
  horizonSeconds : UInt64
  absoluteSlack : UInt64
deriving DecidableEq

/-- The fields that `readFieldError` names. -/
inductive WireField where
  | entityId
  | payloadDigest
  | dotNodeID
  | payload
deriving DecidableEq

/-- `WireIntegrityError`, one constructor for each kind.  An origin that cannot be read is reported
before anything else is known. -/
inductive WireIntegrityError where
  | originUnread
  | fieldUnread (entityID : EntityID) (originNodeID : NodeID) (field : WireField)
  | dotOriginMismatch (entityID : EntityID) (originNodeID dotNodeID : NodeID)
  | digestMismatch (entityID : EntityID) (originNodeID : NodeID) (onWire recomputed : Digest)
  | lamportSkewPoisoning (entityID : EntityID) (originNodeID dotNodeID : NodeID)
      (inboundDotCounter : UInt64) (receiver : LamportSnapshot) (computedBound : UInt64)
deriving DecidableEq

structure ReconstructedEntry where
  entityID : EntityID
  payload : Bytes
  entry : CRDTEntry
deriving DecidableEq

def ReconstructedEntry.incoming (r : ReconstructedEntry) : IncomingEntry := ⟨r.entityID, r.entry⟩

/-- A fixed-size field: a read error or a wrong length is refused. -/
def fixedField (n : ℕ) : Option Bytes → Option (FixedBytes n)
  | none => none
  | some raw => if h : raw.length = n then some ⟨raw, h⟩ else none

@[simp] theorem fixedField_bytes {n : ℕ} (a : FixedBytes n) : fixedField n (some a.bytes) = some a := by
  simp [fixedField]

variable (R : Runtime) {x : IncomingEntry} {events : List DeltaEvent} {pairs : List IncomingEntry}

def reconstructEntry (ev : DeltaEvent) : Except WireIntegrityError ReconstructedEntry :=
  match fixedField 16 ev.originNodeID with
  | none => .error .originUnread
  | some originNodeID =>
    match ev.entityId with
    | none => .error (.fieldUnread [] originNodeID .entityId)
    | some entityID =>
      match fixedField 32 ev.payloadDigest with
      | none => .error (.fieldUnread entityID originNodeID .payloadDigest)
      | some payloadDigest =>
        match fixedField 16 ev.dotNodeID with
        | none => .error (.fieldUnread entityID originNodeID .dotNodeID)
        | some dotNodeID =>
          if dotNodeID ≠ originNodeID then
            .error (.dotOriginMismatch entityID originNodeID dotNodeID)
          else
            match ev.payloadBytes with
            | none => .error (.fieldUnread entityID originNodeID .payload)
            | some payload =>
              if R.sha256 payload ≠ payloadDigest then
                .error (.digestMismatch entityID originNodeID payloadDigest (R.sha256 payload))
              else
                .ok ⟨entityID, payload, ⟨payloadDigest, originNodeID, dotNodeID, ev.dotCounter,
                  ev.systemTime, ev.validTimeStart, ev.validTimeEnd, ev.assertionTime,
                  ev.decisionTime, ev.h3Index⟩⟩

/-! ### The skew bound -/

def Engine.lamportSnapshot (e : Engine) : LamportSnapshot :=
  ⟨e.lamportCounter, e.observedInboundRateBits, e.lamportSkewHorizonBits, e.lamportSkewAbsoluteSlack⟩

def addSat (a b : UInt64) : UInt64 := if 0xFFFFFFFFFFFFFFFF - a < b then 0xFFFFFFFFFFFFFFFF else a + b

def maxAcceptableDotCounter (s : LamportSnapshot) : UInt64 :=
  let envelope := R.rateEnvelope s.observedInboundRate s.horizonSeconds
  if 0xFFFFFFFFFFFFFFFF - s.lamport < envelope then 0xFFFFFFFFFFFFFFFF
  else addSat (s.lamport + envelope) s.absoluteSlack

def reconstructEntryWithSkewBound (ev : DeltaEvent) (snapshot : LamportSnapshot) :
    Except WireIntegrityError ReconstructedEntry :=
  match reconstructEntry R ev with
  | .error err => .error err
  | .ok rec =>
    let bound := maxAcceptableDotCounter R snapshot
    if bound < rec.entry.dotCounter then
      .error (.lamportSkewPoisoning rec.entityID rec.entry.originNodeID rec.entry.dotNodeID
        rec.entry.dotCounter snapshot bound)
    else .ok rec

/-! ### Applying -/

def crdtDeltaEventWireVersion : UInt16 := 1

/-- Why an apply call refused its wire; a batch names the element. -/
inductive ApplyError where
  | decode (err : DecodeError)
  | version (element : Option ℕ) (got : UInt16)
  | integrity (element : Option ℕ) (err : WireIntegrityError)
deriving DecidableEq

def Engine.applyCRDTDeltaEvent (C : Capnp) (e : Engine) (wire : Bytes) : Except ApplyError Engine :=
  match C.decodeEvent wire with
  | .error err => .error (.decode err)
  | .ok ev =>
    if ev.version ≠ crdtDeltaEventWireVersion then .error (.version none ev.version)
    else
      match reconstructEntryWithSkewBound R ev e.lamportSnapshot with
      | .error err => .error (.integrity none err)
      | .ok rec => .ok (e.join R ⟨rec.entry.originNodeID, [rec.incoming]⟩)

/-- The element loop of `ApplyCRDTDeltaBatch`: every element against the one snapshot. -/
def reconstructBatch (snapshot : LamportSnapshot) :
    ℕ → List DeltaEvent → Except ApplyError (List IncomingEntry)
  | _, [] => .ok []
  | i, ev :: evs =>
    if ev.version ≠ crdtDeltaEventWireVersion then .error (.version (some i) ev.version)
    else
      match reconstructEntryWithSkewBound R ev snapshot with
      | .error err => .error (.integrity (some i) err)
      | .ok rec =>
        match reconstructBatch snapshot (i + 1) evs with
        | .error err => .error err
        | .ok pairs => .ok (rec.incoming :: pairs)

/-- The origin a batch is joined under: that of its first element. -/
def batchOrigin (pairs : List IncomingEntry) : NodeID :=
  (pairs.head?.map fun x => x.entry.originNodeID).getD (.zero 16)

def Engine.applyCRDTDeltaBatch (C : Capnp) (e : Engine) (wire : Bytes) : Except ApplyError Engine :=
  match C.decodeBatch wire with
  | .error err => .error (.decode err)
  | .ok events =>
    match reconstructBatch R e.lamportSnapshot 0 events with
    | .error err => .error err
    | .ok pairs => .ok (e.join R ⟨batchOrigin pairs, pairs⟩)

/-- The element loop of `InspectBatchDots`, which has no skew bound. -/
def inspectEvents : ℕ → List DeltaEvent → Except ApplyError (List CRDTEntry)
  | _, [] => .ok []
  | i, ev :: evs =>
    if ev.version ≠ crdtDeltaEventWireVersion then .error (.version (some i) ev.version)
    else
      match reconstructEntry R ev with
      | .error err => .error (.integrity (some i) err)
      | .ok rec =>
        match inspectEvents (i + 1) evs with
        | .error err => .error err
        | .ok entries => .ok (rec.entry :: entries)

/-- `InspectBatchDots`: the first element's origin and all counters. -/
def inspectBatchDots (C : Capnp) (wire : Bytes) : Except ApplyError (NodeID × List UInt64) :=
  match C.decodeBatch wire with
  | .error err => .error (.decode err)
  | .ok events =>
    match inspectEvents R 0 events with
    | .error err => .error err
    | .ok entries =>
      .ok ((entries.head?.map CRDTEntry.originNodeID).getD (.zero 16), entries.map CRDTEntry.dotCounter)

/-! ### What is accepted -/

section
variable {R}

theorem fixedField_eq_some {n : ℕ} {f : Option Bytes} {a : FixedBytes n} :
    fixedField n f = some a ↔ f = some a.bytes := by
  constructor
  · intro h
    cases f with
    | none => cases h
    | some raw =>
      simp only [fixedField, Option.dite_none_right_eq_some, Option.some.injEq] at h
      obtain ⟨_, rfl⟩ := h
      rfl
  · rintro rfl
    exact fixedField_bytes a

/-- What an event says, read back from the entry made of it: every field is there, the dot is the
declared origin's and the digest is that of the payload. -/
structure Reconstructs (R : Runtime) (ev : DeltaEvent) (rec : ReconstructedEntry) : Prop where
  origin : ev.originNodeID = some rec.entry.originNodeID.bytes
  entityID : ev.entityId = some rec.entityID
  digest : ev.payloadDigest = some rec.entry.payloadDigest.bytes
  dotNode : ev.dotNodeID = some rec.entry.dotNodeID.bytes
  payload : ev.payloadBytes = some rec.payload
  attributed : rec.entry.dotNodeID = rec.entry.originNodeID
  attested : rec.entry.payloadDigest = R.sha256 rec.payload
  scalars : rec.entry = ⟨rec.entry.payloadDigest, rec.entry.originNodeID, rec.entry.dotNodeID,
    ev.dotCounter, ev.systemTime, ev.validTimeStart, ev.validTimeEnd, ev.assertionTime,
    ev.decisionTime, ev.h3Index⟩

variable {ev : DeltaEvent} {rec : ReconstructedEntry} {s : LamportSnapshot}

/-- **`ReconstructEntry`** accepts an event exactly when every field is there and the two attestations
hold. -/
theorem reconstructEntry_eq_ok : reconstructEntry R ev = .ok rec ↔ Reconstructs R ev rec := by
  constructor
  · intro h
    rw [reconstructEntry] at h
    cases horigin : fixedField 16 ev.originNodeID with
    | none => simp [horigin] at h
    | some originNodeID =>
    cases hentity : ev.entityId with
    | none => simp [horigin, hentity] at h
    | some entityID =>
    cases hdigest : fixedField 32 ev.payloadDigest with
    | none => simp [horigin, hentity, hdigest] at h
    | some payloadDigest =>
    cases hdot : fixedField 16 ev.dotNodeID with
    | none => simp [horigin, hentity, hdigest, hdot] at h
    | some dotNodeID =>
    simp only [horigin, hentity, hdigest, hdot] at h
    by_cases hne : dotNodeID ≠ originNodeID
    · simp [hne] at h
    rw [if_neg hne] at h
    cases hpayload : ev.payloadBytes with
    | none => simp [hpayload] at h
    | some payload =>
    simp only [hpayload] at h
    by_cases hsha : R.sha256 payload ≠ payloadDigest
    · simp [hsha] at h
    rw [if_neg hsha] at h
    cases h
    exact ⟨fixedField_eq_some.mp horigin, hentity, fixedField_eq_some.mp hdigest,
      fixedField_eq_some.mp hdot, hpayload, not_not.mp hne, (not_not.mp hsha).symm, rfl⟩
  · intro h
    have hscalars := h.scalars
    simp only [reconstructEntry, h.origin, h.entityID, h.digest, h.dotNode, h.payload, fixedField_bytes,
      h.attributed, h.attested.symm, ne_eq, not_true_eq_false, if_false, Except.ok.injEq]
    rw [h.attributed] at hscalars
    rw [← hscalars]

/-- An event that was accepted as it stands: every field is there, the origin owns the dot, the digest
is that of the payload. -/
theorem reconstructEntry_ok (h : reconstructEntry R ev = .ok rec) :
    ev.originNodeID = some rec.entry.originNodeID.bytes ∧ ev.entityId = some rec.entityID ∧
      ev.payloadBytes = some rec.payload ∧ rec.entry.dotNodeID = rec.entry.originNodeID ∧
      rec.entry.dotCounter = ev.dotCounter ∧ rec.entry.payloadDigest = R.sha256 rec.payload := by
  have hrec := reconstructEntry_eq_ok.mp h
  exact ⟨hrec.origin, hrec.entityID, hrec.payload, hrec.attributed,
    congrArg CRDTEntry.dotCounter hrec.scalars, hrec.attested⟩

theorem reconstructEntryWithSkewBound_ok :
    reconstructEntryWithSkewBound R ev s = .ok rec ↔
      reconstructEntry R ev = .ok rec ∧ rec.entry.dotCounter ≤ maxAcceptableDotCounter R s := by
  rw [reconstructEntryWithSkewBound]
  cases hrec : reconstructEntry R ev with
  | error err => simp
  | ok rec' =>
    simp only
    split
    · next hlt =>
      refine iff_of_false (by simp) fun h => ?_
      cases h.1
      exact absurd h.2 (UInt64.not_le.mpr hlt)
    · next hle =>
      rw [UInt64.not_lt] at hle
      constructor
      · intro h
        cases h
        exact ⟨rfl, hle⟩
      · rintro ⟨h, -⟩
        exact h

/-- An event that passes every check of an apply call, and the pair that is joined for it. -/
def Carries (R : Runtime) (ev : DeltaEvent) (x : IncomingEntry) : Prop :=
  ∃ rec, reconstructEntry R ev = .ok rec ∧ rec.incoming = x

theorem Carries.dot_eq (h : Carries R ev x) :
    x.entry.dotNodeID = x.entry.originNodeID ∧ x.entry.dotCounter = ev.dotCounter ∧
      ev.originNodeID = some x.entry.originNodeID.bytes := by
  obtain ⟨rec, hrec, rfl⟩ := h
  obtain ⟨horigin, -, -, hdot, hcounter, -⟩ := reconstructEntry_ok hrec
  exact ⟨hdot, hcounter, horigin⟩

theorem Carries.unique {y : IncomingEntry} (hx : Carries R ev x) (hy : Carries R ev y) : x = y := by
  obtain ⟨rec, hrec, rfl⟩ := hx
  obtain ⟨rec', hrec', rfl⟩ := hy
  cases hrec.symm.trans hrec'
  rfl

/-- **`ApplyCRDTDeltaEvent`** joins the one pair of a current event within the bound. -/
theorem Engine.applyCRDTDeltaEvent_ok_iff {C : Capnp} {e e' : Engine} {wire : Bytes} :
    e.applyCRDTDeltaEvent R C wire = .ok e' ↔
      ∃ ev x, C.decodeEvent wire = .ok ev ∧ ev.version = crdtDeltaEventWireVersion ∧ Carries R ev x ∧
        x.entry.dotCounter ≤ maxAcceptableDotCounter R e.lamportSnapshot ∧
        e.join R ⟨x.entry.originNodeID, [x]⟩ = e' := by
  constructor
  · intro h
    rw [applyCRDTDeltaEvent] at h
    cases hdec : C.decodeEvent wire with
    | error err => simp [hdec] at h
    | ok ev =>
    simp only [hdec] at h
    by_cases hver : ev.version ≠ crdtDeltaEventWireVersion
    · simp [hver] at h
    rw [if_neg hver] at h
    cases hrec : reconstructEntryWithSkewBound R ev e.lamportSnapshot with
    | error err => simp [hrec] at h
    | ok rec =>
    simp only [hrec] at h
    obtain ⟨hok, hle⟩ := reconstructEntryWithSkewBound_ok.mp hrec
    exact ⟨ev, rec.incoming, rfl, not_not.mp hver, ⟨rec, hok, rfl⟩, hle, Except.ok.inj h⟩
  · rintro ⟨ev, x, hdec, hver, ⟨rec, hok, rfl⟩, hle, rfl⟩
    have hrec := reconstructEntryWithSkewBound_ok.mpr ⟨hok, hle⟩
    simp only [applyCRDTDeltaEvent, hdec, hver, hrec, ne_eq, not_true_eq_false, if_false]
    rfl

theorem exists_of_forall₂ {α β : Type*} {Q : α → β → Prop} {as : List α} {bs : List β}
    (h : List.Forall₂ Q as bs) {a : α} (ha : a ∈ as) : ∃ b ∈ bs, Q a b := by
  induction h with
  | nil => cases ha
  | @cons a' b' _ _ hab _ ih =>
    rcases List.mem_cons.mp ha with rfl | ha
    · exact ⟨b', List.mem_cons_self, hab⟩
    · obtain ⟨b, hb, hQ⟩ := ih ha
      exact ⟨b, List.mem_cons_of_mem b' hb, hQ⟩

/-- The element loop accepts a batch exactly when it accepts every element. -/
theorem reconstructBatch_ok {i : ℕ} (h : reconstructBatch R s i events = .ok pairs) :
    List.Forall₂ (fun ev x => ev.version = crdtDeltaEventWireVersion ∧ Carries R ev x ∧
      x.entry.dotCounter ≤ maxAcceptableDotCounter R s) events pairs := by
  induction events generalizing i pairs with
  | nil =>
    cases h
    exact .nil
  | cons ev evs ih =>
    rw [reconstructBatch] at h
    by_cases hver : ev.version ≠ crdtDeltaEventWireVersion
    · simp [hver] at h
    rw [if_neg hver] at h
    cases hrec : reconstructEntryWithSkewBound R ev s with
    | error err => simp [hrec] at h
    | ok rec =>
    cases hrest : reconstructBatch R s (i + 1) evs with
    | error err => simp [hrec, hrest] at h
    | ok rest =>
    simp only [hrec, hrest] at h
    cases h
    obtain ⟨hok, hle⟩ := reconstructEntryWithSkewBound_ok.mp hrec
    exact .cons ⟨not_not.mp hver, ⟨rec, hok, rfl⟩, hle⟩ (ih hrest)

/-- The other direction: a batch of current events that pass every check is accepted. -/
theorem reconstructBatch_of_carries (h : List.Forall₂ (fun ev x => ev.version = crdtDeltaEventWireVersion ∧
      Carries R ev x ∧ x.entry.dotCounter ≤ maxAcceptableDotCounter R s) events pairs) (i : ℕ) :
    reconstructBatch R s i events = .ok pairs := by
  induction h generalizing i with
  | nil => rfl
  | cons hev _ ih =>
    obtain ⟨hver, ⟨rec, hok, rfl⟩, hle⟩ := hev
    have hrec := reconstructEntryWithSkewBound_ok.mpr ⟨hok, hle⟩
    simp only [reconstructBatch, hver, hrec, ih, ne_eq, not_true_eq_false, if_false]

/-- **`ApplyCRDTDeltaBatch`** joins the pairs of all its events, all within the one bound. -/
theorem Engine.applyCRDTDeltaBatch_ok {C : Capnp} {e e' : Engine} {wire : Bytes}
    (h : e.applyCRDTDeltaBatch R C wire = .ok e') :
    ∃ events pairs, C.decodeBatch wire = .ok events ∧
      List.Forall₂ (fun ev x => Carries R ev x ∧
        x.entry.dotCounter ≤ maxAcceptableDotCounter R e.lamportSnapshot) events pairs ∧
      e' = e.join R ⟨batchOrigin pairs, pairs⟩ := by
  rw [applyCRDTDeltaBatch] at h
  cases hdec : C.decodeBatch wire with
  | error err => simp [hdec] at h
  | ok events =>
  cases hrec : reconstructBatch R e.lamportSnapshot 0 events with
  | error err => simp [hdec, hrec] at h
  | ok pairs =>
  simp only [hdec, hrec] at h
  cases h
  exact ⟨events, pairs, rfl, (reconstructBatch_ok hrec).imp fun _ _ hx => hx.2, rfl⟩

theorem le_addSat (a b : UInt64) : a ≤ addSat a b := by
  rw [addSat]
  split
  · exact UInt64.le_iff_toNat_le.mpr (by have := a.toNat_lt; simp; omega)
  · next h =>
    rw [UInt64.not_lt, UInt64.le_iff_toNat_le] at h
    rw [UInt64.le_iff_toNat_le, UInt64.toNat_add]
    have ha := a.toNat_lt
    have hsub : ((0xFFFFFFFFFFFFFFFF : UInt64) - a).toNat = 0xFFFFFFFFFFFFFFFF - a.toNat := by
      rw [UInt64.toNat_sub_of_le _ _ (UInt64.le_iff_toNat_le.mpr (by simp; omega))]
      rfl
    rw [hsub] at h
    rw [Nat.mod_eq_of_lt (by omega)]
    omega

theorem lamport_le_maxAcceptable (s : LamportSnapshot) : s.lamport ≤ maxAcceptableDotCounter R s := by
  have hfirst := le_addSat s.lamport (R.rateEnvelope s.observedInboundRate s.horizonSeconds)
  rw [maxAcceptableDotCounter]
  rw [addSat] at hfirst
  split
  · next h => rwa [if_pos h] at hfirst
  · next h =>
    rw [if_neg h] at hfirst
    exact UInt64.le_trans hfirst (le_addSat _ _)

end

/-! ### A batch is applied as a whole or not at all

The same call with the engine as the state it runs on: whatever it has done to the engine when it
fails, stays. -/

/-- The element loop with its accumulator. -/
def reconstructAll (snapshot : LamportSnapshot) :
    ℕ → List IncomingEntry → List DeltaEvent → EStateM ApplyError Engine (List IncomingEntry)
  | _, accum, [] => pure accum
  | i, accum, ev :: evs =>
    if ev.version ≠ crdtDeltaEventWireVersion then throw (.version (some i) ev.version)
    else
      match reconstructEntryWithSkewBound R ev snapshot with
      | .error err => throw (.integrity (some i) err)
      | .ok rec => reconstructAll snapshot (i + 1) (accum ++ [rec.incoming]) evs

/-- `ApplyCRDTDeltaBatch` as a sequence of operations on the engine. -/
def applyCRDTDeltaBatchTo (C : Capnp) (wire : Bytes) : EStateM ApplyError Engine Unit := do
  match C.decodeBatch wire with
  | .error err => throw (.decode err)
  | .ok events =>
    let e ← get
    let accum ← reconstructAll R e.lamportSnapshot 0 [] events
    modify fun e => e.join R ⟨batchOrigin accum, accum⟩

section
variable {R}

theorem run_reconstructAll (snapshot : LamportSnapshot) (i : ℕ) (accum : List IncomingEntry)
    (events : List DeltaEvent) (e : Engine) :
    (reconstructAll R snapshot i accum events).run e =
      match reconstructBatch R snapshot i events with
      | .error err => .error err e
      | .ok pairs => .ok (accum ++ pairs) e := by
  induction events generalizing i accum with
  | nil =>
    show EStateM.Result.ok accum e = .ok (accum ++ []) e
    rw [List.append_nil]
  | cons ev evs ih =>
    rw [reconstructAll, reconstructBatch]
    by_cases hver : ev.version ≠ crdtDeltaEventWireVersion
    · rw [if_pos hver, if_pos hver]
      rfl
    rw [if_neg hver, if_neg hver]
    cases reconstructEntryWithSkewBound R ev snapshot with
    | error err => rfl
    | ok rec =>
      refine (ih (i + 1) (accum ++ [rec.incoming])).trans ?_
      cases reconstructBatch R snapshot (i + 1) evs with
      | error err => rfl
      | ok pairs =>
        show EStateM.Result.ok (accum ++ [rec.incoming] ++ pairs) e =
          .ok (accum ++ rec.incoming :: pairs) e
        rw [List.append_assoc]
        rfl

/-- The call on the engine as state is the call that returns the engine. -/
theorem run_applyCRDTDeltaBatchTo (C : Capnp) (wire : Bytes) (e : Engine) :
    (applyCRDTDeltaBatchTo R C wire).run e =
      match e.applyCRDTDeltaBatch R C wire with
      | .error err => .error err e
      | .ok e' => .ok () e' := by
  rw [applyCRDTDeltaBatchTo, Engine.applyCRDTDeltaBatch]
  cases hdec : C.decodeBatch wire with
  | error err => rfl
  | ok events =>
    have hloop := run_reconstructAll (R := R) e.lamportSnapshot 0 [] events e
    simp only [EStateM.run] at hloop
    simp only [EStateM.run, bind, EStateM.bind, get, getThe, MonadStateOf.get, EStateM.get, hloop]
    cases reconstructBatch R e.lamportSnapshot 0 events with
    | error err => rfl
    | ok pairs => rfl

/-- An element of a batch and the pair that is joined for it: the version is the current one, the pair
says what the element says, and the counter is within the bound of the snapshot. -/
def BatchElement (R : Runtime) (snapshot : LamportSnapshot) (ev : DeltaEvent) (x : IncomingEntry) : Prop :=
  ev.version = crdtDeltaEventWireVersion ∧
    (∃ payload, Reconstructs R ev ⟨x.entityID, payload, x.entry⟩) ∧
    x.entry.dotCounter ≤ maxAcceptableDotCounter R snapshot

theorem carries_iff {ev : DeltaEvent} :
    Carries R ev x ↔ ∃ payload, Reconstructs R ev ⟨x.entityID, payload, x.entry⟩ := by
  constructor
  · rintro ⟨rec, hrec, rfl⟩
    exact ⟨rec.payload, reconstructEntry_eq_ok.mp hrec⟩
  · rintro ⟨payload, hrec⟩
    exact ⟨_, reconstructEntry_eq_ok.mpr hrec, rfl⟩

/-- The loop returns the pairs of the elements, in order, exactly when every element passes. -/
theorem reconstructBatch_eq_ok {s : LamportSnapshot} {i : ℕ} :
    reconstructBatch R s i events = .ok pairs ↔ List.Forall₂ (BatchElement R s) events pairs := by
  constructor
  · intro h
    exact (reconstructBatch_ok h).imp fun ev x hx => ⟨hx.1, carries_iff.mp hx.2.1, hx.2.2⟩
  · intro h
    exact reconstructBatch_of_carries (h.imp fun ev x hx => ⟨hx.1, carries_iff.mpr hx.2.1, hx.2.2⟩) i

/-- **A batch is applied as a whole or not at all.**  Either the call fails, some element does not pass
and the engine is the one it was, or every element passes and the engine is the old one joined with the
pairs of the elements, one for each and in their order. -/
theorem applyCRDTDeltaBatchTo_atomic (R : Runtime) (C : Capnp) (e : Engine) (wire : Bytes) :
    (∃ err, (applyCRDTDeltaBatchTo R C wire).run e = .error err e ∧
      ¬ ∃ events pairs, C.decodeBatch wire = .ok events ∧
        List.Forall₂ (BatchElement R e.lamportSnapshot) events pairs) ∨
    ∃ events pairs, C.decodeBatch wire = .ok events ∧
      List.Forall₂ (BatchElement R e.lamportSnapshot) events pairs ∧
      (applyCRDTDeltaBatchTo R C wire).run e = .ok () (e.join R ⟨batchOrigin pairs, pairs⟩) := by
  rw [run_applyCRDTDeltaBatchTo, Engine.applyCRDTDeltaBatch]
  cases hdec : C.decodeBatch wire with
  | error err =>
    refine .inl ⟨.decode err, rfl, ?_⟩
    rintro ⟨events, pairs, hevents, -⟩
    cases hevents
  | ok events =>
    dsimp only
    cases hrec : reconstructBatch R e.lamportSnapshot 0 events with
    | error err =>
      refine .inl ⟨err, rfl, ?_⟩
      rintro ⟨events', pairs, hevents, hpairs⟩
      cases hevents
      cases hrec.symm.trans (reconstructBatch_eq_ok.mpr hpairs)
    | ok pairs => exact .inr ⟨events, pairs, rfl, reconstructBatch_eq_ok.mp hrec, rfl⟩

end

end Sovereign.Sync

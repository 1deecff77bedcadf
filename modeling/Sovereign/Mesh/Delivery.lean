import Sovereign.Mesh.Pacing
import Sovereign.Mesh.Shipping

/-!
# From one engine to another

One sweep over a connection that loses nothing, from the sender's engine to the receiver's.

* `Gossiper.parcels` says what the loop over a delta sends, without the connection, the memo and the
  signatures: the entries of this node in batches, and the retained frames of other origins between
  them.  `ShipLoop.Ready.foldl` connects the loop with it.
* `HonestBatch.applied` — a batch of the sender that passes the gates leaves every entry with the
  receiver.
* `delivered_when_parcels_fit` — the whole way.  The sender counts entries and not bytes, while the
  frame reader of the receiver takes at most `maxFrameSize` bytes at a time, so every parcel has to fit
  (`Parcel.Fits`); one that does not ends the connection (`oversized_entry_is_not_delivered`).
-/

namespace Sovereign.Mesh

open Lib Sync Identity Attribution Admission
open Receive

/-! ### What is sent -/

/-- What a sweep puts into one frame: a batch of this node, or a retained frame. -/
inductive Parcel where
  | own (events : List BuiltEvent)
  | relayed (frame : Bytes)
deriving DecidableEq

def Parcel.ownEvents : Parcel → List BuiltEvent
  | .own events => events
  | .relayed _ => []

def openParcel (batch : List BuiltEvent) : List Parcel := if batch.isEmpty then [] else [.own batch]

namespace Gossiper

variable (g : Gossiper)
  {seen : List (NodeID × UInt64)} {be : BuiltEvent} {batch : List BuiltEvent} {xs : List IncomingEntry}

def Own (x : IncomingEntry) : Prop := x.entry.originNodeID = g.owner.nodeID

instance (x : IncomingEntry) : Decidable (g.Own x) := inferInstanceAs (Decidable (_ = _))

/-- The event of an own entry whose payload is recorded. -/
def builtEvent (x : IncomingEntry) : Option BuiltEvent :=
  (g.cache.lookup x.entityID x.entry.dot).map fun payload => ⟨x.entityID, payload, x.entry⟩

/-- The parcels of a delta, behind an open batch and with the batches already passed on. -/
def parcels (batchSize : ℤ) : List BuiltEvent → List (NodeID × UInt64) → List IncomingEntry → List Parcel
  | batch, _, [] => openParcel batch
  | batch, seenBatch, x :: xs =>
    if g.Own x then
      match g.builtEvent x with
      | none => parcels batchSize batch seenBatch xs
      | some be =>
        if batchSize ≤ (batch ++ [be]).length then
          .own (batch ++ [be]) :: parcels batchSize [] seenBatch xs
        else parcels batchSize (batch ++ [be]) seenBatch xs
    else
      match g.retainedBatch seenBatch x with
      | none => openParcel batch ++ parcels batchSize [] seenBatch xs
      | some (frame, originSeq) =>
        openParcel batch ++
          .relayed frame :: parcels batchSize [] ((x.entry.originNodeID, originSeq) :: seenBatch) xs

def sweepParcels : List Parcel := g.parcels (clampBatchSize g.batchSize) [] [] g.engine.items

/-- The sender with nothing to pass on: its parcels are the own batches. -/
def alone : Gossiper := { g with relay := .new }

variable {g} {x : IncomingEntry} {batchSize : ℤ}

theorem parcels_missing (hown : g.Own x) (hbuilt : g.builtEvent x = none) :
    g.parcels batchSize batch seen (x :: xs) = g.parcels batchSize batch seen xs := by
  rw [parcels, if_pos hown, hbuilt]

theorem parcels_full (hown : g.Own x) (hbuilt : g.builtEvent x = some be)
    (hfull : batchSize ≤ (batch ++ [be]).length) :
    g.parcels batchSize batch seen (x :: xs) = .own (batch ++ [be]) :: g.parcels batchSize [] seen xs := by
  rw [parcels, if_pos hown, hbuilt]
  exact if_pos hfull

theorem parcels_packed (hown : g.Own x) (hbuilt : g.builtEvent x = some be)
    (hroom : ¬batchSize ≤ (batch ++ [be]).length) :
    g.parcels batchSize batch seen (x :: xs) = g.parcels batchSize (batch ++ [be]) seen xs := by
  rw [parcels, if_pos hown, hbuilt]
  exact if_neg hroom

theorem parcels_alone (hforeign : ¬g.Own x) :
    g.alone.parcels batchSize batch seen (x :: xs)
      = openParcel batch ++ g.alone.parcels batchSize [] seen xs := by
  have hforeign' : ¬g.alone.Own x := hforeign
  rw [parcels, if_neg hforeign']
  rfl

theorem ownEvents_parcels :
    (g.parcels batchSize batch seen xs).flatMap Parcel.ownEvents
      = batch ++ xs.filterMap fun x => if g.Own x then g.builtEvent x else none := by
  have hopen (batch : List BuiltEvent) : (openParcel batch).flatMap Parcel.ownEvents = batch := by
    cases batch with
    | nil => rfl
    | cons be batch => exact List.append_nil _
  induction xs generalizing batch seen with
  | nil => exact (hopen batch).trans (List.append_nil _).symm
  | cons x xs ih =>
    rw [parcels, List.filterMap_cons]
    by_cases hown : g.Own x
    · rw [if_pos hown, if_pos hown]
      cases g.builtEvent x with
      | none => exact ih
      | some be =>
        dsimp only
        split
        · rw [List.flatMap_cons, ih]
          simp [Parcel.ownEvents]
        · rw [ih]
          simp
    · rw [if_neg hown, if_neg hown]
      cases g.retainedBatch seen x with
      | none => rw [List.flatMap_append, hopen, ih, List.nil_append]
      | some p => rw [List.flatMap_append, hopen, List.flatMap_cons, ih]; rfl

/-- The events in the batches of a sweep are those of the own entries with a payload. -/
theorem exists_own_parcel_iff :
    (∃ events, .own events ∈ g.sweepParcels ∧ be ∈ events) ↔
      ∃ x ∈ g.engine.items, g.Own x ∧ g.builtEvent x = some be := by
  have hevents : be ∈ g.sweepParcels.flatMap Parcel.ownEvents ↔
      be ∈ g.engine.items.filterMap fun x => if g.Own x then g.builtEvent x else none := by
    rw [sweepParcels, ownEvents_parcels, List.nil_append]
  rw [List.mem_flatMap, List.mem_filterMap] at hevents
  constructor
  · rintro ⟨events, hmem, hbe⟩
    obtain ⟨x, hx, hsome⟩ := hevents.mp ⟨_, hmem, hbe⟩
    split at hsome
    · next hown => exact ⟨x, hx, hown, hsome⟩
    · cases hsome
  · rintro ⟨x, hx, hown, hbuilt⟩
    obtain ⟨p, hp, hbe⟩ := hevents.mpr ⟨x, hx, (if_pos hown).trans hbuilt⟩
    cases p with
    | own events => exact ⟨events, hp, hbe⟩
    | relayed frame => cases hbe

end Gossiper

/-! ### The loop sends the parcels -/

variable {T : Toolkit} {P : Platform}

/-- The frame of a parcel. -/
def Parcel.Ships (P : Platform) (T : Toolkit) (g : Gossiper) : Parcel → Bytes → Prop
  | .own events, frame => ∃ seq wire, HonestBatch P g.owner seq events g.hybridSign frame ∧
      buildCRDTDeltaBatch T events = some wire ∧ frame.length = envelopeHeaderLen g.hybridSign + wire.length
  | .relayed retained, frame => frame = retained

/-- The memo of a sweep: nothing of the sender has changed, an envelope that is kept is the frame of the
own batch at its place, and `rest` is what the loop is still to ship.  With a stratified sweep there is
no memo, and no place. -/
structure Gossiper.Memo (P : Platform) (T : Toolkit) (g' g : Gossiper) (rest : List Parcel) : Prop where
  store : g.SameStore g'
  kept : ∀ {cache i e p}, g'.sweepEnvCache = some cache → cache i = some e →
    g.alone.sweepParcels[i]? = some p → ∃ frame, e.env = lengthPrefixFrame frame ∧ p.Ships P T g frame
  placed : g'.stratified = false → g.alone.sweepParcels.drop g'.sweepEnvIdx = rest

variable {g g' : Gossiper} {rest : List Parcel} {p : Parcel} {link : Link}

variable {st : ShipLoop} {events : List BuiltEvent} {frame : Bytes} {hybrid : Bool} {seq : UInt64}
  {owner : NodeIdentity}

namespace Gossiper

@[simp] theorem link_transmit (g : Gossiper) (link : Link) (prefixed : Bytes) (n : ℕ) :
    (g.transmit link prefixed n).link = (link.publish prefixed).1 := by
  rw [transmit]
  split <;> simp [*]

@[simp] theorem gossiper_transmit (g : Gossiper) (link : Link) (prefixed : Bytes) (n : ℕ) :
    (g.transmit link prefixed n).gossiper = g := by
  rw [transmit]
  split <;> rfl

theorem Memo.next (h : g'.Memo P T g (p :: rest)) (hflat : g'.stratified = false) :
    g.alone.sweepParcels[g'.sweepEnvIdx]? = some p ∧
      g.alone.sweepParcels.drop (g'.sweepEnvIdx + 1) = rest := by
  have hplaced := h.placed hflat
  constructor
  · have hhead : (g.alone.sweepParcels.drop g'.sweepEnvIdx)[0]? = some p := by rw [hplaced]; rfl
    rwa [List.getElem?_drop, Nat.add_zero] at hhead
  · rw [← List.tail_drop, hplaced, List.tail_cons]

theorem Memo.again (h : g'.Memo P T g (p :: rest)) (hflat : g'.stratified = false) :
    { g' with sweepEnvIdx := g'.sweepEnvIdx + 1 }.Memo P T g rest :=
  ⟨h.store.trans ⟨rfl, rfl, rfl, rfl, rfl, rfl, rfl, rfl⟩, h.kept, fun _ => (h.next hflat).2⟩

theorem Memo.shippedNew (h : g'.Memo P T g (p :: rest)) (hships : p.Ships P T g frame) (n : ℕ) :
    (g'.shippedNew n frame).Memo P T g rest := by
  have hput : ∀ {old : ℕ → Option SweepMemoEntry} {i e q}, g'.stratified = false →
      (∀ {i e q}, old i = some e → g.alone.sweepParcels[i]? = some q →
        ∃ frame, e.env = lengthPrefixFrame frame ∧ q.Ships P T g frame) →
      Function.update old g'.sweepEnvIdx (some ⟨lengthPrefixFrame frame, n⟩) i = some e →
      g.alone.sweepParcels[i]? = some q → ∃ frame, e.env = lengthPrefixFrame frame ∧ q.Ships P T g frame := by
    intro old i e q hflat hold he hq
    by_cases hi : i = g'.sweepEnvIdx
    · rw [hi, Function.update_self] at he
      rw [hi, (h.next hflat).1] at hq
      cases he
      cases hq
      exact ⟨frame, rfl, hships⟩
    · rw [Function.update_of_ne hi] at he
      exact hold he hq
  rw [Gossiper.shippedNew, cacheSweepEnvelope]
  split
  · next hstrat =>
    exact ⟨h.store.trans ⟨rfl, rfl, rfl, rfl, rfl, rfl, rfl, rfl⟩, h.kept,
      fun hflat => absurd (hflat.symm.trans hstrat) Bool.false_ne_true⟩
  next hflat =>
  have hflat : g'.stratified = false := by simpa using hflat
  dsimp only
  split
  · refine ⟨h.store.trans ⟨rfl, rfl, rfl, rfl, rfl, rfl, rfl, rfl⟩, ?_, fun _ => (h.next hflat).2⟩
    rintro _ i e q ⟨⟩ he hq
    exact hput hflat (fun he => by cases he) he hq
  · next old hold =>
    refine ⟨h.store.trans ⟨rfl, rfl, rfl, rfl, rfl, rfl, rfl, rfl⟩, ?_, fun _ => (h.next hflat).2⟩
    rintro _ i e q ⟨⟩ he hq
    exact hput hflat (h.kept hold) he hq

theorem Memo.ship (h : g'.Memo P T g (.own events :: rest)) (hT : T.Honest P g.owner)
    (hpriv : g.hybridSign = true → g.owner.pqPriv.isSome) (hne : events ≠ [])
    (hmax : events.length ≤ maxBatchSize) (link : Link) :
    ∃ frame, (Parcel.own events).Ships P T g frame ∧
      (g'.ship T link events).link = (link.publish (lengthPrefixFrame frame)).1 ∧
      (g'.ship T link events).gossiper.Memo P T g rest := by
  have hpriv' : g'.hybridSign = true → g'.owner.pqPriv.isSome := by rwa [h.store.hybridSign, h.store.owner]
  cases hmemo : g'.sweepEnvelope events.length with
  | none =>
    obtain ⟨wire, frame, hhonest, hbuild, hlength, hship⟩ :=
      ship_new (h.store.owner.symm ▸ hT) hpriv' hne hmax hmemo link
    rw [h.store.owner, h.store.hybridSign] at hhonest
    rw [h.store.hybridSign] at hlength
    have hships : (Parcel.own events).Ships P T g frame := ⟨_, wire, hhonest, hbuild, hlength⟩
    refine ⟨frame, hships, ?_, ?_⟩
    · rw [hship, link_transmit]
    · rw [hship, gossiper_transmit]
      exact h.shippedNew hships _
  | some again =>
    obtain ⟨pre, g₁⟩ := again
    obtain ⟨hflat, cache, e, hcache, he, rfl, rfl⟩ := sweepEnvelope_eq_some hmemo
    obtain ⟨frame, henv, hships⟩ := h.kept hcache he (h.next hflat).1
    rw [ship_eq hpriv' hne hmax, shipSealed, hmemo]
    exact ⟨frame, hships, by rw [link_transmit, henv], by rw [gossiper_transmit]; exact h.again hflat⟩

end Gossiper

/-- The loop is about to go on, with `rest` to ship, and the open batch is not overfull. -/
structure ShipLoop.Ready (P : Platform) (T : Toolkit) (g : Gossiper) (rest : List Parcel) (st : ShipLoop) :
    Prop where
  memo : st.gossiper.Memo P T g rest
  batch : st.batch.length ≤ maxBatchSize

namespace ShipLoop.Ready

variable {batchSize : ℤ}

theorem relayForeign (h : st.Ready P T g rest) (x : IncomingEntry) :
    (st.relayForeign x).Ready P T g rest ∧ (st.relayForeign x).batch = st.batch ∧ (st.link.faults = [] →
      match g.retainedBatch st.seenBatch x with
      | none => (st.relayForeign x).link = st.link ∧ (st.relayForeign x).seenBatch = st.seenBatch
      | some (frame, originSeq) =>
        (st.relayForeign x).link = ⟨st.link.sent ++ [lengthPrefixFrame frame], []⟩ ∧
          (st.relayForeign x).seenBatch = (x.entry.originNodeID, originSeq) :: st.seenBatch) := by
  obtain ⟨hmemo, hbatch⟩ := h
  rw [Gossiper.retainedBatch, ← hmemo.store.relay, ShipLoop.relayForeign]
  cases hlookup : st.gossiper.relay.lookupBatch x.entry.originNodeID x.entry.dotCounter with
  | none => exact ⟨⟨hmemo, hbatch⟩, rfl, fun _ => ⟨rfl, rfl⟩⟩
  | some p =>
    obtain ⟨frame, originSeq⟩ := p
    by_cases hseen : (x.entry.originNodeID, originSeq) ∈ st.seenBatch
    · simp only [Option.filter, hseen, if_true, not_true_eq_false, decide_false,
        Bool.false_eq_true, if_false]
      exact ⟨⟨hmemo, hbatch⟩, trivial, fun _ => ⟨trivial, trivial⟩⟩
    · simp only [Option.filter, hseen, if_false, not_false_eq_true, decide_true, if_true]
      refine ⟨?_, ?_, fun hfaults => ?_⟩
      · split <;> exact ⟨hmemo, hbatch⟩
      · split <;> rfl
      · simp only [Link.publish, hfaults]
        exact ⟨trivial, trivial⟩

variable (hT : T.Honest P g.owner) (hpriv : g.hybridSign = true → g.owner.pqPriv.isSome)
include hT hpriv

theorem flush (h : st.Ready P T g (openParcel st.batch ++ rest)) :
    ∃ frames, List.Forall₂ (Parcel.Ships P T g) (openParcel st.batch) frames ∧
      (st.flush T).Ready P T g rest ∧ (st.flush T).batch = [] ∧ (st.flush T).seenBatch = st.seenBatch ∧
      (st.link.faults = [] → (st.flush T).link = ⟨st.link.sent ++ frames.map lengthPrefixFrame, []⟩) := by
  obtain ⟨hmemo, hbatch⟩ := h
  by_cases hempty : st.batch.isEmpty = true
  · have hflush : st.flush T = st := by rw [ShipLoop.flush, if_pos hempty]
    rw [openParcel, if_pos hempty] at hmemo ⊢
    rw [hflush]
    refine ⟨[], .nil, ⟨hmemo, hbatch⟩, List.isEmpty_iff.mp hempty, rfl, fun hfaults => ?_⟩
    rw [← hfaults, List.map_nil, List.append_nil]
  · rw [openParcel, if_neg hempty] at hmemo ⊢
    obtain ⟨frame, hships, hlink, hmemo'⟩ := hmemo.ship hT hpriv (by simpa using hempty) hbatch st.link
    have hflush : (st.flush T).gossiper = (st.gossiper.ship T st.link st.batch).gossiper ∧
        (st.flush T).link = (st.gossiper.ship T st.link st.batch).link ∧ (st.flush T).batch = [] ∧
        (st.flush T).seenBatch = st.seenBatch := by
      rw [ShipLoop.flush, if_neg hempty]
      dsimp only
      split <;> exact ⟨rfl, rfl, rfl, rfl⟩
    obtain ⟨hgossiper, hlink', hnil, hseen⟩ := hflush
    refine ⟨[frame], .cons hships .nil, ⟨hgossiper ▸ hmemo', ?_⟩, hnil, hseen, fun hfaults => ?_⟩
    · rw [hnil]
      exact Nat.zero_le _
    · rw [hlink', hlink, Link.publish, hfaults]
      rfl

omit hT hpriv

/-- From `st` to `st'` the loop has sent what the parcels have for the entry `x`. -/
def Sends (P : Platform) (T : Toolkit) (g : Gossiper) (batchSize : ℤ) (x : IncomingEntry) (xs : List IncomingEntry)
    (st st' : ShipLoop) : Prop :=
  ∃ ps frames, List.Forall₂ (Parcel.Ships P T g) ps frames ∧
    st'.Ready P T g (g.alone.parcels batchSize st'.batch [] xs) ∧ (st'.batch.length : ℤ) < batchSize ∧
    (st.link.faults = [] → st'.link = ⟨st.link.sent ++ frames.map lengthPrefixFrame, []⟩ ∧
      g.parcels batchSize st.batch st.seenBatch (x :: xs) = ps ++ g.parcels batchSize st'.batch st'.seenBatch xs)

section
variable {x : IncomingEntry} {xs : List IncomingEntry}
  (h : st.Ready P T g (g.alone.parcels batchSize st.batch [] (x :: xs))) (hroom : (st.batch.length : ℤ) < batchSize)
include hT hpriv h hroom

theorem packOwn (hsize : batchSize ≤ maxBatchSize) (hown : g.Own x) :
    Sends P T g batchSize x xs st (st.packOwn T batchSize x) := by
  have hown' : g.alone.Own x := hown
  have hlink (hfaults : st.link.faults = []) :
      st.link = ⟨st.link.sent ++ ([] : List Bytes).map lengthPrefixFrame, []⟩ := by
    rw [← hfaults, List.map_nil, List.append_nil]
  cases hlookup : g.cache.lookup x.entityID x.entry.dot with
  | none =>
    -- neither a miss nor a payload to come leaves a trace on the connection
    have hbuilt : g.builtEvent x = none := by rw [Gossiper.builtEvent, hlookup, Option.map_none]
    rw [Gossiper.parcels_missing hown' hbuilt] at h
    simp only [ShipLoop.packOwn, h.memo.store.cache, hlookup]
    split <;> exact ⟨[], [], .nil, ⟨h.memo, h.batch⟩, hroom, fun hfaults =>
      ⟨hlink hfaults, Gossiper.parcels_missing hown hbuilt⟩⟩
  | some payload =>
    set be : BuiltEvent := ⟨x.entityID, payload, x.entry⟩ with hbe
    have hbuilt : g.builtEvent x = some be := by rw [Gossiper.builtEvent, hlookup, Option.map_some]
    have hlength : (st.pack be).batch.length ≤ maxBatchSize := by
      simp only [ShipLoop.pack, List.length_append, List.length_singleton]
      omega
    simp only [ShipLoop.packOwn, h.memo.store.cache, hlookup, ← hbe]
    by_cases hfull : batchSize ≤ (st.pack be).batch.length
    · rw [if_pos hfull]
      have hopen : openParcel (st.pack be).batch = [.own (st.batch ++ [be])] := by
        simp [openParcel, ShipLoop.pack]
      rw [Gossiper.parcels_full hown' hbuilt hfull, ← List.singleton_append, ← hopen] at h
      have hpacked : (st.pack be).Ready P T g _ := ⟨h.memo, hlength⟩
      obtain ⟨frames, hships, hready, hempty, hseen, hsent⟩ := hpacked.flush hT hpriv
      refine ⟨_, frames, hships, hempty.symm ▸ hready, ?_, fun hfaults => ⟨hsent hfaults, ?_⟩⟩
      · rw [hempty]
        exact hroom.trans_le' (Int.natCast_nonneg _)
      · rw [hempty, hseen, hopen]
        exact Gossiper.parcels_full hown hbuilt hfull
    · rw [if_neg hfull]
      rw [Gossiper.parcels_packed hown' hbuilt hfull] at h
      exact ⟨[], [], .nil, ⟨h.memo, hlength⟩, not_le.mp hfull, fun hfaults =>
        ⟨hlink hfaults, Gossiper.parcels_packed hown hbuilt hfull⟩⟩

theorem relay (hown : ¬g.Own x) : Sends P T g batchSize x xs st ((st.flush T).relayForeign x) := by
  have hpos : (0 : ℤ) < batchSize := hroom.trans_le' (Int.natCast_nonneg _)
  rw [Gossiper.parcels_alone hown] at h
  obtain ⟨first, hfirst, hready, hempty, hseen, hsent⟩ := h.flush hT hpriv
  obtain ⟨hready', hbatch', hrelay⟩ := hready.relayForeign x
  rw [hseen] at hrelay
  rw [Sends, hbatch', hempty]
  have hclear (hfaults : st.link.faults = []) : (st.flush T).link.faults = [] := by rw [hsent hfaults]
  cases hretained : g.retainedBatch st.seenBatch x with
  | none =>
    simp only [hretained] at hrelay
    refine ⟨openParcel st.batch, first, hfirst, hready', hpos, fun hfaults => ?_⟩
    obtain ⟨hlink', hseen'⟩ := hrelay (hclear hfaults)
    rw [hlink', hsent hfaults, hseen', Gossiper.parcels, if_neg hown, hretained]
    exact ⟨rfl, rfl⟩
  | some p =>
    simp only [hretained] at hrelay
    have hrelayed : Parcel.Ships P T g (.relayed p.1) p.1 := rfl
    refine ⟨openParcel st.batch ++ [.relayed p.1], first ++ [p.1],
      List.rel_append hfirst (.cons hrelayed .nil), hready', hpos, fun hfaults => ?_⟩
    obtain ⟨hlink', hseen'⟩ := hrelay (hclear hfaults)
    rw [hlink', hsent hfaults, hseen', Gossiper.parcels, if_neg hown, hretained, List.map_append]
    simp

theorem step (hsize : batchSize ≤ maxBatchSize) : Sends P T g batchSize x xs st (st.step T batchSize x) := by
  rw [ShipLoop.step, h.memo.store.owner]
  split
  · next hown => exact h.relay hT hpriv hroom hown
  · next hown => exact h.packOwn hT hpriv hroom hsize (not_not.mp hown)

end

include hT hpriv

/-- **The loop sends the parcels**, in their order, over a connection that loses nothing; and over any
other it leaves the memo as good as it was. -/
theorem foldl (hsize : batchSize ≤ maxBatchSize) {xs : List IncomingEntry}
    (h : st.Ready P T g (g.alone.parcels batchSize st.batch [] xs)) (hroom : (st.batch.length : ℤ) < batchSize) :
    ((xs.foldl (ShipLoop.step T batchSize) st).flush T).gossiper.Memo P T g [] ∧ (st.link.faults = [] →
      ∃ frames, List.Forall₂ (Parcel.Ships P T g) (g.parcels batchSize st.batch st.seenBatch xs) frames ∧
        ((xs.foldl (ShipLoop.step T batchSize) st).flush T).link
          = ⟨st.link.sent ++ frames.map lengthPrefixFrame, []⟩) := by
  induction xs generalizing st with
  | nil =>
    rw [Gossiper.parcels, ← List.append_nil (openParcel _)] at h
    obtain ⟨frames, hships, hready, -, -, hsent⟩ := h.flush hT hpriv
    exact ⟨hready.memo, fun hfaults => ⟨frames, hships, hsent hfaults⟩⟩
  | cons x xs ih =>
    obtain ⟨ps, first, hfirst, hready, hroom', hsent⟩ := h.step hT hpriv hroom hsize
    obtain ⟨hmemo, hlater⟩ := ih hready hroom'
    refine ⟨hmemo, fun hfaults => ?_⟩
    obtain ⟨hlink, hps⟩ := hsent hfaults
    obtain ⟨rest, hrest, hlink'⟩ := hlater (by rw [hlink])
    refine ⟨first ++ rest, ?_, ?_⟩
    · rw [hps]
      exact List.rel_append hfirst hrest
    · rw [List.foldl_cons, hlink', hlink, List.map_append, List.append_assoc]

end ShipLoop.Ready

theorem clampBatchSize_bounds (batchSize : ℤ) :
    0 < Gossiper.clampBatchSize batchSize ∧ Gossiper.clampBatchSize batchSize ≤ maxBatchSize := by
  simp only [Gossiper.clampBatchSize, maxBatchSize, defaultBatchSize]
  split <;> split <;> omega

section
variable (hT : T.Honest P g.owner) (hpriv : g.hybridSign = true → g.owner.pqPriv.isSome)
  (hbatched : 1 < g.batchSize ∨ g.hybridSign = true) {peerID : NodeID} (hpeer : peerID ≠ g.owner.nodeID)
include hT hpriv hbatched

/-- One peer of a sweep: the envelopes of the peers before it are used again. -/
theorem Gossiper.Memo.sweepPeer {st : Sweep} (h : st.gossiper.Memo P T g rest) (peer node : NodeID) :
    let st' := Gossiper.sweepPeer T ⟨node, g.engine.items⟩ st peer
    (∃ rest, st'.gossiper.Memo P T g rest) ∧ (∀ other, other ≠ peer → st'.links other = st.links other) ∧
      (peer ≠ g.owner.nodeID → (st.links peer).faults = [] →
        ∃ frames, List.Forall₂ (Parcel.Ships P T g) g.sweepParcels frames ∧
          st'.links peer = ⟨(st.links peer).sent ++ frames.map lengthPrefixFrame, []⟩) := by
  intro st'
  by_cases howner : peer = g.owner.nodeID
  · have hskip : st' = st := if_pos (howner.trans (by rw [h.store.owner]))
    rw [hskip]
    exact ⟨⟨rest, h⟩, fun _ _ => rfl, fun hne => absurd howner hne⟩
  obtain ⟨hpos, hmax⟩ := clampBatchSize_bounds g.batchSize
  set start := ShipLoop.start { st.gossiper with sweepEnvIdx := 0 } (st.links peer)
  have hready : start.Ready P T g
      (g.alone.parcels (clampBatchSize g.batchSize) start.batch [] g.engine.items) :=
    ⟨⟨h.store.trans ⟨rfl, rfl, rfl, rfl, rfl, rfl, rfl, rfl⟩, h.kept, fun _ => rfl⟩, Nat.zero_le _⟩
  obtain ⟨hmemo, hsent⟩ := hready.foldl hT hpriv hmax hpos
  rw [← h.store.batchSize] at hmemo hsent
  have howner' : ¬peer = st.gossiper.owner.nodeID := by rwa [h.store.owner]
  have hbatched' : 1 < st.gossiper.batchSize ∨ st.gossiper.hybridSign = true := by
    rwa [h.store.batchSize, h.store.hybridSign]
  simp only [st', Gossiper.sweepPeer, if_neg howner', if_pos hbatched', Function.update_self]
  refine ⟨⟨[], hmemo⟩, fun other hne => Function.update_of_ne hne _ _, fun _ hfaults => ?_⟩
  rw [Gossiper.sweepParcels, ← h.store.batchSize]
  exact hsent hfaults

include hpeer

theorem sweepPeers_sent {st : Sweep} (h : st.gossiper.Memo P T g rest) (hfaults : (st.links peerID).faults = [])
    (peerIDs : List NodeID) (node : NodeID) :
    ∃ frames, List.Forall₂ (Parcel.Ships P T g)
        (List.replicate (peerIDs.count peerID) g.sweepParcels).flatten frames ∧
      ((peerIDs.foldl (Gossiper.sweepPeer T ⟨node, g.engine.items⟩) st).links peerID).sent
        = (st.links peerID).sent ++ frames.map lengthPrefixFrame := by
  induction peerIDs generalizing st rest with
  | nil => exact ⟨[], .nil, by simp⟩
  | cons peer peerIDs ih =>
    obtain ⟨⟨rest', hmemo⟩, hothers, hsent⟩ := h.sweepPeer hT hpriv hbatched peer node
    rw [List.foldl_cons]
    by_cases heq : peer = peerID
    · obtain ⟨first, hfirst, hlink⟩ := hsent (heq ▸ hpeer) (heq ▸ hfaults)
      rw [heq] at hlink hmemo ⊢
      obtain ⟨later, hlater, hlinks⟩ := ih hmemo (by rw [hlink])
      refine ⟨first ++ later, ?_, ?_⟩
      · rw [List.count_cons_self, List.replicate_succ, List.flatten_cons]
        exact List.rel_append hfirst hlater
      · rw [hlinks, hlink, List.map_append, List.append_assoc]
    · have hlink := hothers peerID fun h => heq h.symm
      obtain ⟨later, hlater, hlinks⟩ := ih hmemo (by rw [hlink, hfaults])
      rw [List.count_cons_of_ne heq, ← hlink]
      exact ⟨later, hlater, hlinks⟩

/-- **What a sweep puts on a connection** that loses nothing, whatever becomes of the others: its
parcels, as often as the peer is listed. -/
theorem antiEntropySweep_sent (R : Runtime) (seed : Seed) (peerIDs : List NodeID) (links : NodeID → Link)
    (hlossless : links peerID = .lossless) :
    ∃ frames, List.Forall₂ (Parcel.Ships P T g)
        (List.replicate (peerIDs.count peerID) g.sweepParcels).flatten frames ∧
      ((g.antiEntropySweep T R seed peerIDs links).links peerID).sent = frames.map lengthPrefixFrame := by
  have hmemo : g.beginRound.Memo P T g g.alone.sweepParcels :=
    ⟨⟨rfl, rfl, rfl, rfl, rfl, rfl, rfl, rfl⟩, (fun hcache => nomatch hcache), fun _ => rfl⟩
  set st : Sweep := ⟨g.beginRound, links, 0, 0, 0, 0, 0⟩
  have hlink : st.links peerID = .lossless := hlossless
  obtain ⟨frames, hships, hsent⟩ := sweepPeers_sent hT hpriv hbatched hpeer
    (show st.gossiper.Memo P T g _ from hmemo) (by rw [hlink]; rfl) peerIDs g.engine.localNodeID
  refine ⟨frames, hships, ?_⟩
  rw [hlink] at hsent
  simp only [Gossiper.antiEntropySweep, Gossiper.generateSweepDelta_eq]
  exact hsent

end

/-! ### The receiver takes a batch -/

def BuiltEvent.incoming (be : BuiltEvent) : IncomingEntry := ⟨be.entityID, be.entry⟩

/-- An event that passes the checks of a receiver: the origin owns the dot, and the payload is the one
that was digested. -/
def BuiltEvent.Sound (R : Runtime) (be : BuiltEvent) : Prop :=
  be.entry.dotNodeID = be.entry.originNodeID ∧ R.sha256 be.payload = be.entry.payloadDigest

theorem BuiltEvent.Sound.carries {R : Runtime} {be : BuiltEvent} (h : be.Sound R) :
    Carries R be.deltaEvent be.incoming := by
  obtain ⟨entityID, payload, entry⟩ := be
  obtain ⟨hdot, hsha⟩ : entry.dotNodeID = entry.originNodeID ∧ R.sha256 payload = entry.payloadDigest := h
  refine ⟨⟨entityID, payload, entry⟩, ?_, rfl⟩
  simpa [reconstructEntry, BuiltEvent.deltaEvent, hsha] using hdot

/-- A batch of sound events within the skew bound is joined. -/
theorem applyBatch_of_sound {r : Receiver} {wire : Bytes}
    (hdec : P.capnp.decodeBatch wire = .ok (events.map BuiltEvent.deltaEvent))
    (hsound : ∀ be ∈ events, be.Sound P.runtime)
    (hskew : ∀ be ∈ events,
      be.entry.dotCounter ≤ maxAcceptableDotCounter P.runtime r.engine.lamportSnapshot)
    (seq : UInt64) (frame : Bytes) (effects : List Effect) :
    (r.applyBatch P wire seq frame effects).receiver.engine = r.engine.join P.runtime
      ⟨batchOrigin (events.map BuiltEvent.incoming), events.map BuiltEvent.incoming⟩ := by
  have hpairs : List.Forall₂ (fun ev x => ev.version = crdtDeltaEventWireVersion ∧ Carries P.runtime ev x ∧
      x.entry.dotCounter ≤ maxAcceptableDotCounter P.runtime r.engine.lamportSnapshot)
      (events.map BuiltEvent.deltaEvent) (events.map BuiltEvent.incoming) := by
    rw [List.forall₂_map_left_iff, List.forall₂_map_right_iff, List.forall₂_same]
    exact fun be hbe => ⟨rfl, (hsound be hbe).carries, hskew be hbe⟩
  have happly : r.engine.applyCRDTDeltaBatch P.runtime P.capnp wire = .ok (r.engine.join P.runtime
      ⟨batchOrigin (events.map BuiltEvent.incoming), events.map BuiltEvent.incoming⟩) := by
    rw [Engine.applyCRDTDeltaBatch, hdec]
    simp only [reconstructBatch_of_carries hpairs]
  rw [Receiver.applyBatch, happly]

/-- The receiver knows the keys of an owner and expects its kind of batches. -/
structure Receiver.Knows (r : Receiver) (owner : NodeIdentity) (hybrid : Bool) : Prop where
  lookup : r.dir.lookup owner.nodeID = some owner.pub
  pq : hybrid = true → r.dir.mPQ owner.nodeID = owner.pqPub
  mode : r.hybridVerify = hybrid

section
variable (h : HonestBatch P owner seq events hybrid frame)
include h

/-- **A batch of the sender is taken**: past the rate gate and within the skew bound, its entries are
joined. -/
theorem HonestBatch.applied {r : Receiver}
    (hknows : Receiver.Knows r owner hybrid) (hsound : ∀ be ∈ events, be.Sound P.runtime)
    (hskew : ∀ be ∈ events,
      be.entry.dotCounter ≤ maxAcceptableDotCounter P.runtime r.engine.lamportSnapshot)
    (hrate : (r.handle P (batchInbound hybrid frame)).verdict ≠ .dropRate) :
    (r.handle P (batchInbound hybrid frame)).receiver.engine = r.engine.join P.runtime
      ⟨batchOrigin (events.map BuiltEvent.incoming), events.map BuiltEvent.incoming⟩ := by
  obtain ⟨hlookup, hpq, hmode⟩ := hknows
  cases h with
  | @classical _ wire sig count henv hsig hdec =>
    simp only [batchInbound, Bool.false_eq_true, if_false, Receiver.handle, Receiver.handleBatchFrame,
      henv] at hrate ⊢
    cases hbucket : r.bucket.accept P.peerRate (Receiver.rateKey owner.nodeID) seq with
    | mk bucket decision =>
    cases decision with
    | drop =>
      rw [hbucket] at hrate
      exact absurd rfl hrate
    | keep =>
      have hverified : originVerified P { r with bucket := bucket } owner.pub wire sig = true := by
        rw [originVerified, if_neg (by simp [hmode]), hsig]
      simp only [hlookup, hverified, Bool.not_true, Bool.false_eq_true, if_false]
      exact applyBatch_of_sound (r := { r with bucket := bucket }) hdec hsound hskew _ _ _
  | @hybrid _ wire edSig pqSig count henv hsig hdec =>
    simp only [batchInbound, if_true, Receiver.handle, Receiver.handleHybridFrame, hmode, Bool.not_true,
      Bool.false_eq_true, if_false, henv] at hrate ⊢
    cases hbucket : r.bucket.accept P.peerRate (Receiver.rateKey owner.nodeID) seq with
    | mk bucket decision =>
    cases decision with
    | drop =>
      rw [hbucket] at hrate
      exact absurd rfl hrate
    | keep =>
      have hboth : r.dir.lookupBoth owner.nodeID = some (owner.pub, owner.pqPub) := by
        have hm : r.dir.m owner.nodeID = some owner.pub := hlookup
        rw [Directory.lookupBoth, hm, hpq rfl]
        rfl
      simp only [hboth, hsig, Bool.not_true, Bool.false_eq_true, if_false]
      exact applyBatch_of_sound (r := { r with bucket := bucket, hybridVerify := true }) hdec hsound hskew _ _ _

theorem HonestBatch.batchFields :
    ∃ wire, Receive.batchFields (batchInbound hybrid frame) = some (owner.nodeID, wire) := by
  cases h with
  | @classical _ wire sig count henv hsig hdec =>
    refine ⟨wire, ?_⟩
    simp only [batchInbound, Bool.false_eq_true, if_false, Receive.batchFields, henv]
    rfl
  | @hybrid _ wire edSig pqSig count henv hsig hdec =>
    refine ⟨wire, ?_⟩
    simp only [batchInbound, if_true, Receive.batchFields, henv]
    rfl

theorem HonestBatch.dispatchFrame (now : Clocks) :
    Receive.dispatchFrame now frame = some (batchInbound hybrid frame) := by
  cases h with
  | classical henv hsig hdec => exact dispatchFrame_batch henv now
  | hybrid henv hsig hdec => exact dispatchFrame_hybrid henv now

end

/-! ### The whole way -/

/-- A parcel whose frame the reader of the receiver takes. -/
def Parcel.Fits (T : Toolkit) (hybrid : Bool) : Parcel → Prop
  | .own events => ∀ wire, buildCRDTDeltaBatch T events = some wire →
      envelopeHeaderLen hybrid + wire.length ≤ maxFrameSize
  | .relayed frame => FrameFits frame

theorem Parcel.Ships.fits {p : Parcel} (h : p.Ships P T g frame)
    (hfits : p.Fits T g.hybridSign) : FrameFits frame := by
  cases p with
  | own events =>
    obtain ⟨seq, wire, -, hbuild, hlength⟩ := h
    refine ⟨?_, ?_⟩
    · rw [hlength, envelopeHeaderLen, hybridEnvelopeHeaderLen, batchEnvelopeHeaderLen]
      split <;> omega
    · rw [hlength]
      exact hfits wire hbuild
  | relayed retained =>
    obtain rfl : frame = retained := h
    exact hfits

/-- Rate gate and skew bound of a receiver admit the counters of a sender, when a batch under the
sender's name comes in. -/
def Admits (P : Platform) (g : Gossiper) (r : Receiver) (i : Inbound) : Prop :=
  ∀ wire, Receive.batchFields i = some (g.owner.nodeID, wire) →
    (r.handle P i).verdict ≠ .dropRate ∧ ∀ x ∈ g.engine.items, g.Own x →
      x.entry.dotCounter ≤ maxAcceptableDotCounter P.runtime r.engine.lamportSnapshot

/-- Under the keys of the sender's entries the receiver holds nothing else, when a batch under the
sender's name comes in. -/
def Unrivalled (P : Platform) (g : Gossiper) (r : Receiver) (i : Inbound) : Prop :=
  ∀ wire, Receive.batchFields i = some (g.owner.nodeID, wire) →
    ∀ x ∈ g.engine.items, g.Own x → ∀ y ∈ r.engine.contents P.runtime, y.key = x.key → y = x

/-- **Delivery**: if every parcel fits, one batched sweep leaves every entry of the sender with each
listed receiver whose connection loses nothing, whether its envelopes are new or were built for a peer
before it. -/
theorem delivered_when_parcels_fit (P : Platform) (T : Toolkit) (g : Gossiper) (hT : T.Honest P g.owner)
    (hpriv : g.hybridSign = true → g.owner.pqPriv.isSome) (hbatched : 1 < g.batchSize ∨ g.hybridSign = true)
    (hwf : g.engine.WF P.runtime)
    (hown : ∀ x ∈ g.engine.items, g.Own x → x.entry.dotNodeID = x.entry.originNodeID)
    (hrecorded : ∀ x ∈ g.engine.items, g.OwnRecorded P.runtime x)
    (hfits : ∀ p ∈ g.sweepParcels, p.Fits T g.hybridSign)
    (seed : Seed) (peerIDs : List NodeID) (links : NodeID → Link) (peerID : NodeID) (hlisted : peerID ∈ peerIDs)
    (hpeer : peerID ≠ g.owner.nodeID) (hlossless : links peerID = .lossless)
    (r : Receiver) (hrwf : r.engine.WF P.runtime) (hknows : Receiver.Knows r g.owner g.hybridSign)
    (clocks : ℕ → Clocks) (stream : Bytes)
    (hstream : stream = ((g.antiEntropySweep T P.runtime seed peerIDs links).links peerID).sent.flatten)
    (hrun : Along (fun r i => (r.handle P i).receiver) (fun r i => Admits P g r i ∧ Unrivalled P g r i) r
      (inbounds clocks stream)) :
    ∀ x ∈ g.engine.items, g.Own x →
      x ∈ (r.readLoop P clocks stream).engine.contents P.runtime := by
  intro x hx hxown
  obtain ⟨fs, hships, hsent⟩ := antiEntropySweep_sent hT hpriv hbatched hpeer P.runtime seed peerIDs links hlossless
  rw [hsent] at hstream
  have hparcels {p : Parcel} :
      p ∈ (List.replicate (peerIDs.count peerID) g.sweepParcels).flatten ↔ p ∈ g.sweepParcels := by
    have hcount : peerIDs.count peerID ≠ 0 := (List.count_pos_iff.mpr hlisted).ne'
    simp [hcount]
  -- the entry is in a batch, and the batch in a frame that is read
  obtain ⟨payload, hlookup, -⟩ := hrecorded x hx hxown
  have hbuilt : g.builtEvent x = some ⟨x.entityID, payload, x.entry⟩ := by
    rw [Gossiper.builtEvent, hlookup, Option.map_some]
  obtain ⟨events, hparcel, hbe⟩ := Gossiper.exists_own_parcel_iff.mpr ⟨x, hx, hxown, hbuilt⟩
  obtain ⟨frame, hframe, seq, wire, hhonest, -, -⟩ := exists_of_forall₂ hships (hparcels.mpr hparcel)
  have hread : frames stream = fs := by
    rw [hstream]
    refine frames_flatten fun f hf => ?_
    obtain ⟨p, hp, hship⟩ := exists_of_forall₂ hships.flip hf
    have hship' : p.Ships P T g f := hship
    exact hship'.fits (hfits p (hparcels.mp hp))
  have hmem := mem_inbounds clocks (hread.symm ▸ hframe) hhonest.dispatchFrame
  -- at that frame the receiver takes the batch
  obtain ⟨before, after, hsplit, hadmits, honly⟩ := hrun.exists_split hmem
  obtain ⟨wire', hfields⟩ := hhonest.batchFields
  obtain ⟨hrate, hskew⟩ := hadmits wire' hfields
  have hevents : ∀ be ∈ events, be.incoming ∈ g.engine.items ∧ g.Own be.incoming ∧
      be.Sound P.runtime := by
    intro be hmem'
    obtain ⟨y, hy, hyown, hybuilt⟩ := Gossiper.exists_own_parcel_iff.mp ⟨events, hparcel, hmem'⟩
    obtain ⟨payload', hlookup', hdigest⟩ := hrecorded y hy hyown
    rw [Gossiper.builtEvent, hlookup', Option.map_some] at hybuilt
    obtain rfl := Option.some.inj hybuilt
    exact ⟨hy, hyown, hown y hy hyown, hdigest⟩
  set mid := r.handleAll P before
  have hmid := handleAll_grows (P := P) hrwf before
  have hsetup := handleAll_sameSetup (P := P) r before
  have happlied := hhonest.applied (r := mid) ⟨hsetup.dir ▸ hknows.lookup, hsetup.dir ▸ hknows.pq,
    hsetup.hybridVerify.trans hknows.mode⟩ (fun be h => (hevents be h).2.2)
    (fun be h => hskew be.incoming (hevents be h).1 (hevents be h).2.1) hrate
  have htaken : x ∈ (mid.handle P (batchInbound g.hybridSign frame)).receiver.engine.contents P.runtime := by
    rw [happlied]
    refine Engine.mem_contents_join hmid.1 (List.mem_map.mpr ⟨_, hbe, rfl⟩) fun y hy hkey => ?_
    rcases hy with hy | hy
    · exact honly wire' hfields x hx hxown y hy hkey
    · obtain ⟨be, hbe', rfl⟩ := List.mem_map.mp hy
      exact hwf.injOn_key ((Engine.mem_items hwf).mp (hevents be hbe').1) ((Engine.mem_items hwf).mp hx) hkey
  -- and nothing behind it takes the entry away
  have hafter := handleAll_grows (P := P) (handle_grows hmid.1 (batchInbound g.hybridSign frame)).1 after
  have hend : r.readLoop P clocks stream
      = (mid.handle P (batchInbound g.hybridSign frame)).receiver.handleAll P after := by
    rw [Receiver.readLoop, hsplit, Receiver.handleAll, List.foldl_append, List.foldl_cons]
    rfl
  rw [hend]
  exact hafter.2 htaken

/-! ### A sender with one entry -/

/-- A sender that has inserted one entry, with a payload of `n` zeros, and sends batches of two. -/
def zeroSender (n : ℕ) : Gossiper :=
  let inserted := (newEngine 1 (fun _ => 0) 0 (sampleNode 9) 0).insertLocal .sample [7] (sampleEntry 9 0 0)
  { Gossiper.new sampleOwner inserted.2 with
    batchSize := 2
    cache := PayloadCache.record (fun _ _ => none) [7] inserted.1 (List.replicate n 0) }

def zeroItem : IncomingEntry := ⟨[7], sampleEntry 9 1 0⟩

def zeroReceiver : Receiver :=
  .sample fun n => if n = sampleOwner.nodeID then some sampleOwner.pub else none

/-- What the sender puts on the connection of the zero peer. -/
def zeroStream (peerIDs : List NodeID) (n : ℕ) : Bytes :=
  (((zeroSender n).antiEntropySweep .sample .sample 0 peerIDs fun _ => .lossless).links (.zero 16)).sent.flatten

theorem zeroSender_items (n : ℕ) : (zeroSender n).engine.items = [zeroItem] := by
  have h : (zeroSender 0).engine.items = [zeroItem] := by decide +kernel
  exact h

theorem wf_zeroSender (n : ℕ) : (zeroSender n).engine.WF .sample := by
  have hnew := Engine.wf_newEngine (R := .sample) Nat.one_pos (fun _ => 0) 0 (sampleNode 9) 0
  have hempty : (newEngine 1 (fun _ => 0) 0 (sampleNode 9) 0).pointGet .sample [7] = [] := by decide
  refine (Engine.insertLocal_spec hnew [7] (sampleEntry 9 0 0) fun x hx => ?_).1
  rw [hempty] at hx
  cases hx

theorem sha256_zeros (n : ℕ) : Runtime.sample.sha256 (List.replicate n 0) = zeroItem.entry.payloadDigest := by
  have hzero : zeroItem.entry.payloadDigest = .zero 32 := by decide
  rw [hzero]
  apply FixedBytes.ext
  show (List.replicate n (0 : UInt8) ++ List.replicate 32 0).take 32 = List.replicate 32 0
  rw [List.replicate_append_replicate, List.take_replicate, Nat.min_eq_left (by omega)]

theorem zeroSender_recorded (n : ℕ) : (zeroSender n).Recorded .sample zeroItem :=
  ⟨List.replicate n 0, rfl, sha256_zeros n⟩

theorem honest_zeroSender (n : ℕ) :
    Toolkit.sample.Honest (wirePlatform [sampleOwner.pub]) (zeroSender n).owner :=
  honest_sample List.mem_cons_self rfl

theorem zeroReceiver_knows : Receiver.Knows zeroReceiver sampleOwner false :=
  ⟨by decide, (fun h => nomatch h), rfl⟩

theorem zeroSender_parcels (n : ℕ) :
    (zeroSender n).sweepParcels = [.own [⟨[7], List.replicate n 0, zeroItem.entry⟩]] := by
  rw [Gossiper.sweepParcels, zeroSender_items]
  rfl

/-- The wire of the sender's one batch. -/
theorem zeroSender_wire (n : ℕ) {wire : Bytes}
    (h : buildCRDTDeltaBatch .sample [⟨[7], List.replicate n 0, zeroItem.entry⟩] = some wire) :
    wire.length = 2 * n + 206 := by
  obtain rfl := Option.some.inj h
  simp [putEvents, putEvent, putField, BuiltEvent.deltaEvent, putString, zeroItem, sampleEntry]
  omega

theorem zeroSender_sent (n : ℕ) : ∃ frame, frame.length = 2 * n + 301 ∧
    zeroStream [.zero 16] n = lengthPrefixFrame frame := by
  obtain ⟨fs, hships, hsent⟩ := antiEntropySweep_sent (honest_zeroSender n) (fun h => nomatch h)
    (.inl one_lt_two) (show FixedBytes.zero 16 ≠ _ from fun h => by cases h) .sample 0 [.zero 16]
    (fun _ => .lossless) rfl
  rw [List.count_singleton_self, List.replicate_one, List.flatten_singleton, zeroSender_parcels,
    List.forall₂_cons_left_iff] at hships
  obtain ⟨frame, rest, ⟨seq, wire, -, hbuild, hlength⟩, hnil, rfl⟩ := hships
  cases hnil
  refine ⟨frame, ?_, ?_⟩
  · rw [hlength, zeroSender_wire n hbuild]
    show 95 + (2 * n + 206) = 2 * n + 301
    omega
  · rw [zeroStream, hsent]
    simp

/-- The frame of a sender with a payload of three bytes. -/
def smallFrame : Bytes :=
  marshalBatchEnvelope sampleOwner.nodeID (.copyFrom 64 [1]) 1 1
    (putEvents [BuiltEvent.deltaEvent ⟨[7], List.replicate 3 0, zeroItem.entry⟩])

set_option maxRecDepth 100000 in
theorem inbounds_zeroStream :
    inbounds (fun _ => ⟨0, 0⟩) (zeroStream [sampleNode 4, .zero 16] 3) = [.batch smallFrame] := by
  have hframes : frames (zeroStream [sampleNode 4, .zero 16] 3) = [smallFrame] := by decide +kernel
  have hdispatch := dispatchFrame_batch (unmarshal_marshalBatchEnvelope sampleOwner.nodeID
    (show FixedBytes.copyFrom 64 [1] ≠ .zero 64 by decide) 1 1
    (putEvents [BuiltEvent.deltaEvent ⟨[7], List.replicate 3 0, zeroItem.entry⟩])) ⟨0, 0⟩
  rw [inbounds, hframes]
  exact congrArg (fun i => List.reduceOption [i]) hdispatch

set_option maxRecDepth 100000 in
/-- A small entry is delivered, in the envelope built for another peer. -/
theorem delivered_on_zeros : zeroItem ∈
    (zeroReceiver.readLoop (wirePlatform [sampleOwner.pub]) (fun _ => ⟨0, 0⟩)
      (zeroStream [sampleNode 4, .zero 16] 3)).engine.contents .sample := by
  have hempty : zeroReceiver.engine.contents .sample = ∅ := Engine.contents_newEngine Nat.one_pos _ _ _ _
  have hitems := zeroSender_items 3
  have hrecorded : ∀ x ∈ (zeroSender 3).engine.items, (zeroSender 3).OwnRecorded .sample x := by
    intro x hx _
    rw [hitems, List.mem_singleton] at hx
    exact hx ▸ zeroSender_recorded 3
  have hfits : ∀ p ∈ (zeroSender 3).sweepParcels, p.Fits .sample (zeroSender 3).hybridSign := by
    intro p hp
    rw [zeroSender_parcels, List.mem_singleton] at hp
    subst hp
    intro wire hwire
    rw [zeroSender_wire 3 hwire]
    decide
  refine delivered_when_parcels_fit (wirePlatform [sampleOwner.pub]) .sample (zeroSender 3)
    (honest_zeroSender 3) (fun h => nomatch h) (.inl (by decide)) (wf_zeroSender 3) ?_ hrecorded hfits 0
    [sampleNode 4, .zero 16] (fun _ => .lossless) (.zero 16) (by simp) (by decide) rfl zeroReceiver
    (Engine.wf_newEngine Nat.one_pos _ _ _ _) zeroReceiver_knows (fun _ => ⟨0, 0⟩)
    (zeroStream [sampleNode 4, .zero 16] 3) rfl ?_ zeroItem (by rw [hitems]; exact List.mem_cons_self) (by decide)
  · rw [hitems]
    decide
  · rw [inbounds_zeroStream]
    refine ⟨⟨fun _ _ => ⟨by decide +kernel, ?_⟩, fun _ _ x _ _ y hy => ?_⟩, trivial⟩
    · rw [hitems]
      decide
    · have hnone : y ∈ zeroReceiver.engine.contents .sample := hy
      rw [hempty] at hnone
      cases hnone

/-- **An entry with a payload of 16 MiB is not delivered**: it is recorded, signed and sent in one frame,
the receiver knows the sender, holds nothing, and would admit batch number and counter; but the frame is
longer than the reader takes, and the receiver still holds nothing. -/
theorem oversized_entry_is_not_delivered :
    zeroItem ∈ (zeroSender 16777216).engine.items ∧ (zeroSender 16777216).Own zeroItem ∧
      (zeroSender 16777216).Recorded .sample zeroItem ∧ (zeroSender 16777216).batchSeq + 1 < initialBudget ∧
      Toolkit.sample.Honest (wirePlatform [sampleOwner.pub]) (zeroSender 16777216).owner ∧
      Receiver.Knows zeroReceiver sampleOwner false ∧
      zeroItem.entry.dotCounter ≤ maxAcceptableDotCounter .sample zeroReceiver.engine.lamportSnapshot ∧
      ∀ clocks, zeroItem ∉ (zeroReceiver.readLoop (wirePlatform [sampleOwner.pub]) clocks
        (zeroStream [.zero 16] 16777216)).engine.contents .sample := by
  refine ⟨?_, rfl, zeroSender_recorded _, by decide, honest_zeroSender _, zeroReceiver_knows, by decide, ?_⟩
  · rw [zeroSender_items]
    exact List.mem_cons_self
  intro clocks
  obtain ⟨frame, hlength, hstream⟩ := zeroSender_sent 16777216
  have hframes : frames (zeroStream [.zero 16] 16777216) = [] := by
    have hcut := frames_of_oversized [] (fun f hf => nomatch hf)
      (by rw [hlength, maxFrameSize]; omega) (by rw [hlength]; omega) []
    rw [hstream]
    simpa using hcut
  have hempty : zeroReceiver.engine.contents .sample = ∅ := Engine.contents_newEngine Nat.one_pos _ _ _ _
  have hloop : zeroReceiver.readLoop (wirePlatform [sampleOwner.pub]) clocks (zeroStream [.zero 16] 16777216)
      = zeroReceiver := by
    rw [Receiver.readLoop, inbounds, hframes]
    rfl
  rw [hloop, hempty]
  exact Set.notMem_empty _

end Sovereign.Mesh

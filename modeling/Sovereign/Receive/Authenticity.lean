import Sovereign.Receive.Outcome

/-!
# Who vouches for an entry

An entry that the receive path adds should come under a signature of the node it is attributed to.

`HandleFrame` guarantees it: the event, the header and the verified key all name one origin.  The batch
handlers check one signature, that of the origin in the header, and then join every element of the
batch under the origin that the element itself names; nothing compares the two.  A registered peer can
so attribute entries to any node (`peer_signs_for_another`).

`received_entries_attested` is the guarantee that remains: in every run in which each batch that its
named origin signed holds only elements of that origin, every entry that is added is vouched for.
-/

namespace Sovereign.Receive

open Lib Sync Identity Attribution Admission

variable (P : Platform) {r : Receiver}

/-- A signed message contains an entry: it is the event itself, or what is signed for a batch with an
element that carries the entry. -/
inductive Attests (msg : Bytes) (x : IncomingEntry) : Prop
  | event {ev : DeltaEvent} (hdec : P.capnp.decodeEvent msg = .ok ev) (h : Carries P.runtime ev x)
  | element {wire : Bytes} {events : List DeltaEvent} {ev : DeltaEvent} (hmsg : SignsBatch P wire msg)
      (hdec : P.capnp.decodeBatch wire = .ok events) (hev : ev ∈ events) (h : Carries P.runtime ev x)

/-- The node an entry is attributed to has a registered key that signed a message with the entry in it. -/
def Attested (Signed : PublicKey → Bytes → Prop) (dir : Directory) (x : IncomingEntry) : Prop :=
  ∃ pub msg, dir.lookup x.entry.originNodeID = some pub ∧ Signed pub msg ∧ Attests P msg x

/-- A batch that the origin in its header signed holds only elements of that origin. -/
def OwnElements (dir : Directory) (i : Inbound) : Prop :=
  ∀ origin wire pub msg sig events, batchFields i = some (origin, wire) → dir.lookup origin = some pub →
    SignsBatch P wire msg → P.crypto.verifyCRDTFrame pub msg sig = true →
    P.capnp.decodeBatch wire = .ok events → ∀ ev ∈ events, ev.originNodeID = some origin.bytes

variable {P} {Signed : PublicKey → Bytes → Prop}

section
variable (hunforgeable : ∀ pub msg sig, P.crypto.verifyCRDTFrame pub msg sig = true → Signed pub msg)
include hunforgeable

theorem FrameOutcome.attested
    (hwf : r.engine.WF P.runtime) {now : Clocks} {bytes : Bytes} {v : Verdict} {e : Engine}
    (h : FrameOutcome P r now bytes v e) :
    e.WF P.runtime ∧ ∀ x ∈ e.contents P.runtime, x ∈ r.engine.contents P.runtime ∨
      Attested P Signed r.dir x := by
  cases h with
  | early => exact ⟨hwf, fun x hx => .inl hx⟩
  | late => exact ⟨hwf.advance _, fun x hx => .inl (Engine.contents_advance .. ▸ hx)⟩
  | @accepted env counter origin y hadm hauth =>
    obtain ⟨pub, hlookup, hsig⟩ := hauth.signed
    obtain ⟨ev, hdec, -, hcarries⟩ := hauth.carried
    refine ⟨(Engine.join_spec (hwf.advance _) _).1, fun x hx => ?_⟩
    rcases Engine.contents_join_subset (hwf.advance _) _ hx with hold | hnew
    · exact .inl (Engine.contents_advance .. ▸ hold)
    · obtain rfl : x = y := List.mem_singleton.mp hnew
      exact .inr ⟨pub, env.innerWire, hauth.origin_eq ▸ hlookup, hunforgeable _ _ _ (originVerified_classical hsig),
        .event hdec hcarries⟩

/-- What a batch handler adds is vouched for, if the elements are the signer's own. -/
theorem BatchOutcome.attested
    (hwf : r.engine.WF P.runtime) {i : Inbound} (hown : OwnElements P r.dir i) {v : Verdict}
    {e : Engine} (h : BatchOutcome P r i v e) :
    e.WF P.runtime ∧ ∀ x ∈ e.contents P.runtime, x ∈ r.engine.contents P.runtime ∨
      Attested P Signed r.dir x := by
  cases h with
  | rejected => exact ⟨hwf, fun x hx => .inl hx⟩
  | @accepted origin wire msg sig pub events pairs hfields hmsg hlookup hsig hdec hpairs =>
    refine ⟨(Engine.join_spec hwf _).1, fun x hx => ?_⟩
    rcases Engine.contents_join_subset hwf _ hx with hold | hnew
    · exact .inl hold
    · obtain ⟨ev, hev, hcarries, -⟩ := exists_of_forall₂ hpairs.flip hnew
      -- the element names the origin of the header, whose key was asked
      have hnamed := hown origin wire pub msg sig events hfields hlookup hmsg hsig hdec ev hev
      have horigin : x.entry.originNodeID = origin := by
        obtain ⟨-, -, hown'⟩ := hcarries.dot_eq
        exact FixedBytes.ext (Option.some.inj (hown'.symm.trans hnamed))
      exact .inr ⟨pub, msg, horigin ▸ hlookup, hunforgeable _ _ _ hsig,
        .element hmsg hdec hev hcarries⟩

theorem handle_attested
    (hwf : r.engine.WF P.runtime) {i : Inbound} (hown : OwnElements P r.dir i) :
    (r.handle P i).receiver.engine.WF P.runtime ∧
      ∀ x ∈ (r.handle P i).receiver.engine.contents P.runtime, x ∈ r.engine.contents P.runtime ∨
        Attested P Signed r.dir x := by
  cases i with
  | frame now bytes => exact (handleFrame_outcome r now bytes).1.attested hunforgeable hwf
  | batch bytes => exact (handleBatchFrame_outcome r bytes).1.attested hunforgeable hwf hown
  | hybrid bytes => exact (handleHybridFrame_outcome r bytes).1.attested hunforgeable hwf hown

end

/-- **Attribution**: in every run in which each batch signed by its named origin holds only elements of
that origin, every entry the receive path adds is attributed to a node that signed it. -/
theorem received_entries_attested (P : Platform) (Signed : PublicKey → Bytes → Prop)
    (hunforgeable : ∀ pub msg sig, P.crypto.verifyCRDTFrame pub msg sig = true → Signed pub msg)
    (r : Receiver) (hwf : r.engine.WF P.runtime) (is : List Inbound)
    (hown : ∀ i ∈ is, OwnElements P r.dir i) :
    ∀ x ∈ (r.handleAll P is).engine.contents P.runtime, x ∈ r.engine.contents P.runtime ∨
      Attested P Signed r.dir x := by
  induction is generalizing r with
  | nil => exact fun x hx => .inl hx
  | cons i is ih =>
    intro x hx
    have hdir := (handle_sameSetup (P := P) r i).dir
    obtain ⟨hwf', hstep⟩ := handle_attested hunforgeable hwf (hown i List.mem_cons_self)
    have hrest := ih (r.handle P i).receiver hwf' (fun j hj => by
      rw [hdir]
      exact hown j (List.mem_cons_of_mem i hj)) x hx
    rw [hdir] at hrest
    exact hrest.elim (fun hmid => hstep x hmid) .inr

/-- A batch with one element, under the header of a given origin. -/
def oneElementBatch (header element : NodeID) : Inbound :=
  .batch (marshalBatchEnvelope header (.copyFrom 64 [1]) 1 1 (Capnp.sampleWire element 5 [7]))

/-- The keys of the sample: the receiver itself has the zero key, everybody else the key of a peer. -/
def sampleKeys (id : NodeID) : Option PublicKey :=
  some (if id = .zero 16 then .zero 32 else .copyFrom 32 [1])

def elementEntry (origin : NodeID) : IncomingEntry :=
  ⟨[7], ⟨.zero 32, origin, origin, 5, 0, 0, 0, 0, 0, 0⟩⟩

theorem received_entries_attested_on_sample :
    Attested (.sample [.copyFrom 32 [1]]) (fun pub _ => pub = .copyFrom 32 [1]) ⟨sampleKeys, fun _ => none⟩
      (elementEntry (sampleNode 1)) := by
  have hadded := received_entries_attested (.sample [.copyFrom 32 [1]]) (fun pub _ => pub = .copyFrom 32 [1])
    (by
      intro pub msg sig hverify
      exact List.mem_singleton.mp (of_decide_eq_true hverify))
    (.sample sampleKeys) (Engine.wf_newEngine Nat.one_pos _ _ _ _)
    [oneElementBatch (sampleNode 1) (sampleNode 1)]
    (by
      intro i hi origin wire pub msg sig events hfields hlookup hmsg hsig hdec ev hev
      rw [List.mem_singleton.mp hi] at hfields
      have hfields' : batchFields (oneElementBatch (sampleNode 1) (sampleNode 1))
          = some (sampleNode 1, Capnp.sampleWire (sampleNode 1) 5 [7]) := by decide +kernel
      cases hfields.symm.trans hfields'
      cases hdec
      rw [List.mem_singleton.mp hev]
      decide +kernel)
    (elementEntry (sampleNode 1)) (by decide +kernel)
  refine hadded.resolve_left ?_
  decide +kernel

/-- A registered peer signs a batch with an element attributed to the receiver, which never signed
anything; the receiver holds the entry as its own. -/
theorem peer_signs_for_another :
    ∃ (P : Platform) (Signed : PublicKey → Bytes → Prop) (r : Receiver) (i : Inbound) (x : IncomingEntry),
      (∀ pub msg sig, P.crypto.verifyCRDTFrame pub msg sig = true → Signed pub msg) ∧
      (r.handle P i).verdict = .accept ∧ x ∉ r.engine.contents P.runtime ∧
      x ∈ (r.handle P i).receiver.engine.contents P.runtime ∧
      x.entry.originNodeID = r.engine.localNodeID ∧ ¬ Attested P Signed r.dir x := by
  refine ⟨.sample [.copyFrom 32 [1]], fun pub _ => pub = .copyFrom 32 [1], .sample sampleKeys,
    oneElementBatch (sampleNode 1) (.zero 16), elementEntry (.zero 16), ?_, ?_, ?_, ?_, rfl, ?_⟩
  · intro pub msg sig hverify
    exact List.mem_singleton.mp (of_decide_eq_true hverify)
  · decide +kernel
  · decide +kernel
  · decide +kernel
  · rintro ⟨pub, msg, hlookup, rfl, -⟩
    revert hlookup
    decide

end Sovereign.Receive

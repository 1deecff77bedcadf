import Sovereign.Mesh.Gossip
import Sovereign.Receive.RateGate

/-!
# Batch numbers against the rate gate

A sender numbers its batches one after the other for as long as it runs, and the gate charges the
advance of a counter against a budget that nothing refills.  So the gate does not judge how fast a
sender advances but how far it has come: a frame is kept if and only if its counter is below the
initial budget (`kept_iff_below_budget`).  A sender with small steps is refused once it gets there,
one that is seen for the first time with a large counter is refused at once, and batch number
`1048576` of a long-running origin is the first that no receiver takes any more
(`steady_sender_is_dropped`).
-/

namespace Sovereign.Mesh

open Lib Sync Identity Attribution Admission
open Receive

def NeverDropped (ewma : UInt64 → UInt64 → UInt64) (pub : Bytes) (calls : List (Bytes × UInt64)) : Prop :=
  ∀ p ∈ calls.zip (PeerBucket.new.acceptAll ewma calls).2, p.1.1 = pub → p.2 = .keep

/-- The handler a batch is given to. -/
def batchInbound (hybrid : Bool) (frame : Bytes) : Inbound :=
  if hybrid then .hybrid frame else .batch frame

theorem keep_iff_not_drop (d : FrameDecision) : d = .keep ↔ d ≠ .drop := by
  cases d <;> simp

/-- The gate alone: over any interleaving, the calls of a sender are all kept exactly if their counters
are below the initial budget. -/
theorem neverDropped_iff (ewma : UInt64 → UInt64 → UInt64) {pub : Bytes} (hpub : pub.length = 32)
    (calls : List (Bytes × UInt64)) :
    NeverDropped ewma pub calls ↔ ∀ counter, (pub, counter) ∈ calls → counter < initialBudget := by
  obtain ⟨-, hdecisions⟩ := PeerBucket.funded_new.acceptAll ewma calls
  obtain ⟨hlength, hzip⟩ := List.forall₂_iff_zip.mp hdecisions
  constructor
  · intro hkept counter hmem
    -- the call has its decision in the list of decisions
    have hfst : (pub, counter) ∈ (calls.zip (PeerBucket.new.acceptAll ewma calls).2).map Prod.fst := by
      rwa [List.map_fst_zip hlength.le]
    obtain ⟨⟨call, decision⟩, hp, rfl⟩ := List.mem_map.mp hfst
    have hdrop := hzip hp hpub
    have hkeep : decision = .keep := hkept _ hp rfl
    rw [hkeep] at hdrop
    exact UInt64.not_le.mp fun hle => by cases hdrop.mpr hle
  · rintro hbelow ⟨⟨pub', counter⟩, decision⟩ hp rfl
    have hlt := hbelow counter (List.of_mem_zip hp).1
    refine (keep_iff_not_drop _).mpr fun hdrop => ?_
    exact UInt64.not_lt.mpr ((hzip hp hpub).mp hdrop) hlt

/-- A batch reaches the rate gate with its sequence number. -/
theorem HonestBatch.rateRefused_iff {P : Platform} {owner : NodeIdentity} {seq : UInt64}
    {events : List BuiltEvent} {hybrid : Bool} {frame : Bytes}
    (h : HonestBatch P owner seq events hybrid frame) :
    RateRefused P hybrid (batchInbound hybrid frame) ↔ initialBudget ≤ seq := by
  cases h with
  | classical henv hsig hdec => simp [batchInbound, RateRefused, henv]
  | hybrid henv hsig hdec => simp [batchInbound, RateRefused, henv]

@[simp] theorem Gossiper.shippedNew_batchSeq (g : Gossiper) (n : ℕ) (frame : Bytes) :
    (g.shippedNew n frame).batchSeq = g.batchSeq + 1 := by
  rw [shippedNew, cacheSweepEnvelope]
  split
  · rfl
  · split <;> rfl

/-- **What the rate gate lets pass**: of a sender exactly the counters below the initial budget,
whatever steps it takes and whoever else sends; of the batches of an origin, which are numbered one
after the other, exactly those with a number below it, whatever the receiver has handled before. -/
theorem kept_iff_below_budget (P : Platform) (T : Toolkit) :
    (∀ pub : Bytes, pub.length = 32 → ∀ calls : List (Bytes × UInt64),
      NeverDropped P.peerRate pub calls ↔ ∀ counter, (pub, counter) ∈ calls → counter < initialBudget) ∧
    ∀ g : Gossiper, T.Honest P g.owner → (g.hybridSign = true → g.owner.pqPriv.isSome) →
      ∀ events : List BuiltEvent, events ≠ [] → events.length ≤ maxBatchSize →
        g.sweepEnvelope events.length = none → ∀ sent : List Bytes,
        ∃ frame, (g.ship T ⟨sent, []⟩ events).link.sent = sent ++ [lengthPrefixFrame frame] ∧
          (g.ship T ⟨sent, []⟩ events).gossiper.batchSeq = g.batchSeq + 1 ∧
          ∀ (dir : Directory) (engine : Engine) (budget : ℤ) (before : List Inbound),
            (((Receiver.boot dir engine budget g.hybridSign).handleAll P before).handle P
                (batchInbound g.hybridSign frame)).verdict ≠ .dropRate ↔
              g.batchSeq + 1 < initialBudget := by
  refine ⟨fun pub hpub calls => neverDropped_iff P.peerRate hpub calls, ?_⟩
  intro g hT hpriv events hne hmax hmemo sent
  obtain ⟨-, frame, hbatch, -, -, hship⟩ := g.ship_new hT hpriv hne hmax hmemo ⟨sent, []⟩
  refine ⟨frame, by rw [hship]; rfl, by rw [hship]; exact g.shippedNew_batchSeq _ _, ?_⟩
  intro dir engine budget before
  set r := Receiver.boot dir engine budget g.hybridSign
  have hfunded := handleAll_funded (P := P) (r := r) PeerBucket.funded_new before
  have hmode : (r.handleAll P before).hybridVerify = g.hybridSign :=
    (handleAll_sameSetup r before).hybridVerify
  rw [Ne, handle_dropRate_iff hfunded, hmode, hbatch.rateRefused_iff, UInt64.not_le]

def sampleOwner : NodeIdentity := ⟨sampleNode 9, [], .copyFrom 32 [9], none, none⟩

def sampleGossiper (batchSeq : UInt64) : Gossiper :=
  { Gossiper.new sampleOwner (newEngine 1 (fun _ => 0) 0 (sampleNode 9) 0) with batchSeq := batchSeq }

theorem kept_iff_below_budget_on_sample :
    NeverDropped (wirePlatform [sampleOwner.pub]).peerRate (List.replicate 32 7)
        [(List.replicate 32 7, 5), (List.replicate 32 8, 2000000), (List.replicate 32 7, 1048575)] ∧
      ∃ frame, ((sampleGossiper 41).ship Toolkit.sample ⟨[], []⟩ [⟨[1], [2], sampleEntry 9 1 2⟩]).link.sent
          = [lengthPrefixFrame frame] ∧
        ((Receiver.sample fun _ => none).handle (wirePlatform [sampleOwner.pub]) (.batch frame)).verdict
          ≠ .dropRate := by
  obtain ⟨hgate, hships⟩ := kept_iff_below_budget (wirePlatform [sampleOwner.pub]) Toolkit.sample
  refine ⟨(hgate _ (by decide) _).mpr ?_, ?_⟩
  · intro counter hmem
    simp only [List.mem_cons, Prod.mk.injEq, List.not_mem_nil, or_false] at hmem
    rcases hmem with ⟨-, rfl⟩ | ⟨hbad, -⟩ | ⟨-, rfl⟩
    · decide
    · exact absurd hbad (by decide)
    · decide
  · obtain ⟨frame, hsent, -, hverdict⟩ := hships (sampleGossiper 41)
      (honest_sample List.mem_cons_self rfl) (by decide) [⟨[1], [2], sampleEntry 9 1 2⟩] (by simp)
      (by decide) rfl []
    exact ⟨frame, hsent, (hverdict ⟨fun _ => none, fun _ => none⟩
      (newEngine 1 (fun _ => 0) 0 (.zero 16) 0) 0 []).mpr (by decide)⟩

/-- A sender that takes steps of at most half the budget is dropped at its third frame, one that is
first seen at the budget is dropped at once, and so is batch number `1048576` of an origin. -/
theorem steady_sender_is_dropped :
    (PeerBucket.new.acceptAll (fun rate _ => rate)
        [(List.replicate 32 7, 524288), (List.replicate 32 7, 1048575), (List.replicate 32 7, 1048576)]).2
      = [.keep, .keep, .drop] ∧
    (PeerBucket.new.acceptAll (fun rate _ => rate) [(List.replicate 32 7, 1048576)]).2 = [.drop] ∧
    ∃ frame, ((sampleGossiper 1048575).ship Toolkit.sample ⟨[], []⟩
          [⟨[1], [2], sampleEntry 9 1 2⟩]).link.sent = [lengthPrefixFrame frame] ∧
        ((Receiver.sample fun n => if n = sampleOwner.nodeID then some sampleOwner.pub else none).handle
          (wirePlatform [sampleOwner.pub]) (.batch frame)).verdict = .dropRate := by
  refine ⟨by decide, by decide, ?_⟩
  refine ⟨marshalBatchEnvelope sampleOwner.nodeID (.copyFrom 64 [1]) 1048576 1
    (putEvents [BuiltEvent.deltaEvent ⟨[1], [2], sampleEntry 9 1 2⟩]), ?_, ?_⟩
  · rfl
  · rw [handle_dropRate_iff (show (Receiver.sample _).bucket.Funded from PeerBucket.funded_new)]
    exact ⟨_, unmarshal_marshalBatchEnvelope _ (by decide) _ _ _, by decide⟩

end Sovereign.Mesh

import Sovereign.Receive.Outcome

/-!
# Hybrid mode admits no downgrade

With `hybridVerify` on, the two classical handlers ask the hybrid check for an origin without an ML-DSA key, which
nothing passes, so they never get to the engine's entries; `HandleHybridFrame` checks both signatures under both keys of
the directory.  With it off, a hybrid envelope is stopped at the top of its handler, and its magic stops it at the
framing of the two others.
-/

namespace Sovereign.Receive

open Lib Sync Identity Attribution Admission

def Inbound.bytes : Inbound → Bytes
  | .frame _ bytes => bytes
  | .batch bytes => bytes
  | .hybrid bytes => bytes

/-- Both signatures of a hybrid envelope are valid, over the digest of its batch bytes, under the two keys that the
directory has for its origin. -/
structure BothSigned (P : Platform) (dir : Directory) (env : HybridEnvelope) : Prop where
  classical : ∃ pub, dir.m env.originNodeID = some pub ∧
    P.crypto.verifyCRDTFrame pub (P.crypto.hashBatchWireToFrame120 env.batchWire).bytes env.edSig.bytes = true
  postQuantum : ∃ pqPub, dir.mPQ env.originNodeID = some pqPub ∧
    P.crypto.mldsaVerify pqPub (P.crypto.hashBatchWireToFrame120 env.batchWire) env.pqSig.bytes = true

section
variable {P : Platform} {r : Receiver}

theorem originVerified_of_hybrid (h : r.hybridVerify = true) (pub : PublicKey) (msg : Bytes) (sig : OriginSig) :
    originVerified P r pub msg sig = false := by
  rw [originVerified, if_pos h, Crypto.verifyCRDTFrameHybrid_none]

/-- Behind the clock gate of `HandleFrame` nothing is joined in hybrid mode. -/
theorem shards_admitAndOpen (h : r.hybridVerify = true) (now : Clocks) (phys : Int64) (env : RelayEnvelope)
    (counter : UInt64) (origin : NodeID) (bytes : Bytes) :
    (r.admitAndOpen P now phys env counter origin bytes).receiver.engine.shards = r.engine.shards := by
  unfold Receiver.admitAndOpen
  cases hadm : hlcAdmit P r.engine now.cap phys counter with
  | none => rfl
  | some engine =>
    have hshards : engine.shards = r.engine.shards := by
      rw [hlcAdmit] at hadm
      split at hadm
      · cases hadm
      · cases hadm
        exact Engine.advanceLamportTo_shards _ _
    dsimp only
    unfold Receiver.openAndApply
    split
    · exact hshards
    · exact hshards
    · split
      · exact hshards
      · rw [originVerified_of_hybrid (by exact h), if_pos Bool.not_false]
        exact hshards

theorem shards_handleFrame (h : r.hybridVerify = true) (now : Clocks) (bytes : Bytes) :
    (r.handleFrame P now bytes).receiver.engine.shards = r.engine.shards := by
  unfold Receiver.handleFrame
  split
  · rfl
  · split
    · split
      · rfl
      · exact shards_admitAndOpen h _ _ _ _ _ _
    · split
      · rfl
      · split
        · rfl
        · split
          · rfl
          · next bucket _ => exact shards_admitAndOpen (r := { r with bucket := bucket }) h _ _ _ _ _ _

theorem engine_handleBatchFrame (h : r.hybridVerify = true) (bytes : Bytes) :
    (r.handleBatchFrame P bytes).receiver.engine = r.engine := by
  unfold Receiver.handleBatchFrame
  split
  · rfl
  · rfl
  · split
    · rfl
    · dsimp only
      split
      · rfl
      · rw [originVerified_of_hybrid (by exact h), if_pos Bool.not_false]
        rfl

theorem bothSigned_of_verified {edPub : PublicKey} {pqPub : Option PQPublicKey} {env : HybridEnvelope}
    (hlookup : r.dir.lookupBoth env.originNodeID = some (edPub, pqPub))
    (hverified : P.crypto.verifyBatchHybrid edPub pqPub env.batchWire env.edSig.bytes env.pqSig.bytes = true) :
    BothSigned P r.dir env := by
  obtain ⟨pub, hpub, heq⟩ := Option.map_eq_some_iff.mp hlookup
  obtain ⟨rfl, rfl⟩ := Prod.mk.inj heq
  refine ⟨⟨pub, hpub, P.crypto.verifyBatchHybrid_classical hverified⟩, ?_⟩
  rw [Crypto.verifyBatchHybrid] at hverified
  split at hverified
  · cases hverified
  · unfold Crypto.verifyCRDTFrameHybrid at hverified
    split at hverified
    · cases hverified
    · split at hverified
      · cases hverified
      · next pqPub hpq =>
        rw [dif_pos (FixedBytes.length_bytes _)] at hverified
        exact ⟨pqPub, hpq, hverified⟩

/-- Where `HandleHybridFrame` changes the engine, both signatures were valid. -/
theorem handleHybridFrame_changes (bytes : Bytes) (h : (r.handleHybridFrame P bytes).receiver.engine ≠ r.engine) :
    ∃ env, unmarshalHybridFrame bytes = .ok env ∧ BothSigned P r.dir env := by
  unfold Receiver.handleHybridFrame at h
  split at h
  · exact absurd rfl h
  · split at h
    · exact absurd rfl h
    · exact absurd rfl h
    · next env henv =>
      split at h
      · exact absurd rfl h
      · dsimp only at h
        split at h
        · exact absurd rfl h
        · next hlookup =>
          split at h
          · exact absurd rfl h
          · next hverified =>
            exact ⟨env, henv, bothSigned_of_verified hlookup (by simpa using hverified)⟩

/-- A frame with the magic of a hybrid envelope is no relay frame and no batch. -/
theorem not_classical_of_magic {bytes : Bytes} (h : isHybridFrame bytes = true) :
    (∃ err, unmarshalRelayEnvelope bytes = .error err) ∧ unmarshalBatchEnvelope bytes = .error .malformed := by
  obtain ⟨hlen, hmagic⟩ : 4 ≤ bytes.length ∧ getBE (slice bytes 0 4) = wireHybridPQMagic := by
    simpa [isHybridFrame, hasMagic] using h
  have hfour : slice bytes 0 4 = putBE 4 wireHybridPQMagic := by
    have hback := putBE_getBE (slice bytes 0 4)
    rwa [hmagic, slice_length (by omega), eq_comm] at hback
  have htwo : slice bytes 0 2 = [0x53, 0x48] := by
    have htake : slice bytes 0 2 = (slice bytes 0 4).take 2 := by
      rw [slice, slice, List.take_take]
      rfl
    rw [htake, hfour]
    decide
  constructor
  · refine ⟨.unsupportedVersion 0x4853, ?_⟩
    rw [unmarshalRelayEnvelope, if_neg (by omega), htwo]
    rfl
  · rw [unmarshalBatchEnvelope, hmagic]
    split
    · rfl
    · exact if_pos (by decide)

end

/-- **Hybrid mode admits no downgrade**: with it on, whatever is given to one of the three handlers, entries change
only for a hybrid envelope with both signatures; with it off, a hybrid envelope changes nothing. -/
theorem no_hybrid_downgrade (P : Platform) (r : Receiver) (i : Inbound) :
    (r.hybridVerify = true → (r.handle P i).receiver.engine.shards ≠ r.engine.shards →
      ∃ env, unmarshalHybridFrame i.bytes = .ok env ∧ BothSigned P r.dir env) ∧
    (r.hybridVerify = false → isHybridFrame i.bytes = true → (r.handle P i).receiver = r) := by
  constructor
  · intro hon hchanged
    cases i with
    | frame now bytes => exact absurd (shards_handleFrame hon now bytes) hchanged
    | batch bytes => exact absurd (congrArg Engine.shards (engine_handleBatchFrame hon bytes)) hchanged
    | hybrid bytes => exact handleHybridFrame_changes bytes fun heq => hchanged (congrArg Engine.shards heq)
  · intro hoff hmagic
    obtain ⟨⟨err, hrelay⟩, hbatch⟩ := not_classical_of_magic hmagic
    cases i with
    | frame now bytes =>
      rw [Receiver.handle, Receiver.handleFrame, show unmarshalRelayEnvelope bytes = .error err from hrelay]
      rfl
    | batch bytes =>
      rw [Receiver.handle, Receiver.handleBatchFrame, show unmarshalBatchEnvelope bytes = .error .malformed from hbatch]
      rfl
    | hybrid bytes =>
      rw [Receiver.handle, Receiver.handleHybridFrame, hoff]
      rfl

/-- A hybrid batch with one element. -/
def hybridBatch : Inbound :=
  .hybrid (marshalHybridFrame (sampleNode 1) (.copyFrom 64 [1]) (.copyFrom pqSignatureSize [1]) 1 1
    (Capnp.sampleWire (sampleNode 1) 5 [7]))

/-- The small platform, where every ML-DSA signature is valid. -/
def hybridPlatform : Platform :=
  { Platform.sample [.copyFrom 32 [1]] with
    crypto := { (Platform.sample [.copyFrom 32 [1]]).crypto with mldsaVerify := fun _ _ _ => true } }

/-- A receiver in hybrid mode that has both keys of everybody. -/
def hybridReceiver : Receiver :=
  { Receiver.sample (fun _ => none) with
    dir := ⟨fun _ => some (.copyFrom 32 [1]), fun _ => some []⟩, hybridVerify := true }

set_option maxRecDepth 100000 in
theorem hybrid_batch_joined_under_both :
    ∃ env, unmarshalHybridFrame hybridBatch.bytes = .ok env ∧ BothSigned hybridPlatform hybridReceiver.dir env :=
  (no_hybrid_downgrade hybridPlatform hybridReceiver hybridBatch).1 rfl fun heq =>
    absurd (congrArg (List.flatMap HAMT.toList) heq) (by decide +kernel)

end Sovereign.Receive

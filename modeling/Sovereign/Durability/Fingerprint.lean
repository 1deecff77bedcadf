import Sovereign.Durability.ImageCodec
import Sovereign.Durability.Rebuild

/-!
# What the state fingerprint certifies

`fingerprintRecords` folds the records of a captured image, `StateFingerprint` folds the entries of an engine, and
recovery compares the two after it has joined the image into a fresh engine.

* `stateFingerprint_join_image` — the two agree for the image of every walk, through the codec and the join.
* `stateFingerprint_eq_iff` — up to collisions of SHA-256 the fingerprint determines the `(entity, entry)` pairs.
  The hashed string of an entry is the separator, the entity, a zero and 120 bytes: the fields of fixed length on both
  sides make it injective for every entity (`entryPreimage_injective`), although entities are not length-prefixed and
  may contain zeros.  The digests are folded as sorted blocks of 32 bytes, so nothing cancels.

A digest has 32 bytes, so SHA-256 is not injective; `CollisionFree` assumes it only of the strings that are hashed for
the two states.
-/

namespace Sovereign.Durability

open Lib Sync Wal

variable (R : Runtime)

/-! ### The hashed strings -/

def entryPreimage (r : SnapshotRecord) : Bytes :=
  fingerprintDomainSep ++ (r.entityID ++ (0 :: encodeCRDTEntry r.entry))

def foldPreimage (records : List SnapshotRecord) : Bytes :=
  (sortBy compare id (records.map (fingerprintEntry R))).flatten

/-- SHA-256 tells the strings of two lists of records apart: those of their entries, and those of their folds. -/
structure CollisionFree (xs ys : List SnapshotRecord) : Prop where
  entries : ∀ x ∈ xs ++ ys, ∀ y ∈ xs ++ ys,
    R.sha256 (entryPreimage x) = R.sha256 (entryPreimage y) → entryPreimage x = entryPreimage y
  folds : R.sha256 (foldPreimage R xs) = R.sha256 (foldPreimage R ys) → foldPreimage R xs = foldPreimage R ys

theorem encodeCRDTEntry_injective : Function.Injective encodeCRDTEntry := fun a b h => by
  rw [← decode_encodeCRDTEntry a, h, decode_encodeCRDTEntry]

theorem entryPreimage_injective : Function.Injective entryPreimage := by
  intro r s h
  have hrest := List.append_cancel_left h
  -- 121 bytes follow the entity
  obtain ⟨hid, htail⟩ := List.append_inj' hrest (by simp [encodeCRDTEntry_length])
  cases r
  cases s
  cases hid
  cases encodeCRDTEntry_injective (List.cons.inj htail).2
  rfl

/-- Blocks of one positive length can be read back from their concatenation. -/
theorem flatten_injOn {w : ℕ} (hw : 0 < w) :
    Set.InjOn List.flatten {bs : List Bytes | ∀ b ∈ bs, b.length = w} := by
  intro bs
  induction bs with
  | nil =>
    intro _ cs hcs heq
    cases cs with
    | nil => rfl
    | cons c cs =>
      have hlen := congrArg List.length heq
      rw [List.flatten_nil, List.flatten_cons, List.length_append, hcs c List.mem_cons_self, List.length_nil] at hlen
      omega
  | cons b bs ih =>
    intro hbs cs hcs heq
    cases cs with
    | nil =>
      have hlen := congrArg List.length heq
      rw [List.flatten_nil, List.flatten_cons, List.length_append, hbs b List.mem_cons_self, List.length_nil] at hlen
      omega
    | cons c cs =>
      rw [List.flatten_cons, List.flatten_cons] at heq
      obtain ⟨rfl, hrest⟩ := List.append_inj heq
        ((hbs b List.mem_cons_self).trans (hcs c List.mem_cons_self).symm)
      rw [ih (fun x hx => hbs x (List.mem_cons_of_mem _ hx)) (fun x hx => hcs x (List.mem_cons_of_mem _ hx)) hrest]

variable {R}

/-! ### Equal fingerprints -/

variable {xs ys : List SnapshotRecord}

section
variable (hsha : CollisionFree R xs ys)
include hsha

theorem perm_of_fingerprintRecords_eq
    (heq : fingerprintRecords R xs = fingerprintRecords R ys) :
    (xs.map (fingerprintEntry R)).Perm (ys.map (fingerprintEntry R)) := by
  have hblocks : ∀ rs : List SnapshotRecord,
      ∀ b ∈ sortBy compare id (rs.map (fingerprintEntry R)), b.length = 32 := by
    intro rs b hb
    obtain ⟨r, -, rfl⟩ := List.mem_map.mp ((sortBy_perm _).mem_iff.mp hb)
    exact FixedBytes.length_bytes _
  have hsorted := flatten_injOn (by decide : 0 < 32) (hblocks xs) (hblocks ys) (hsha.folds heq)
  have hperm : ∀ bs : List Bytes, (sortBy compare id bs).Perm bs := sortBy_perm
  refine (hperm _).symm.trans ?_
  rw [hsorted]
  exact hperm _

theorem CollisionFree.mem_of_digest {r : SnapshotRecord} (hr : r ∈ xs)
    (hdigest : fingerprintEntry R r ∈ ys.map (fingerprintEntry R)) : r ∈ ys := by
  obtain ⟨s, hs, hsame⟩ := List.mem_map.mp hdigest
  have hpre := hsha.entries s (List.mem_append_right _ hs) r (List.mem_append_left _ hr)
    (FixedBytes.bytes_injective hsame)
  rwa [← entryPreimage_injective hpre]

theorem CollisionFree.symm : CollisionFree R ys xs where
  entries := fun x hx y hy =>
    hsha.entries x (List.perm_append_comm.mem_iff.mp hx) y (List.perm_append_comm.mem_iff.mp hy)
  folds := fun h => (hsha.folds h.symm).symm

theorem mem_iff_of_fingerprintRecords_eq
    (heq : fingerprintRecords R xs = fingerprintRecords R ys) (r : SnapshotRecord) : r ∈ xs ↔ r ∈ ys := by
  have hperm := perm_of_fingerprintRecords_eq hsha heq
  exact ⟨fun hr => hsha.mem_of_digest hr (hperm.mem_iff.mp (List.mem_map_of_mem hr)),
    fun hr => hsha.symm.mem_of_digest hr (hperm.mem_iff.mpr (List.mem_map_of_mem hr))⟩

end

/-- **The fingerprint determines the state**, up to collisions. -/
theorem stateFingerprint_eq_iff {e e' : Engine} (h : e.WF R) (h' : e'.WF R)
    (hsha : CollisionFree R (recordsOf e.allPairs) (recordsOf e'.allPairs)) :
    stateFingerprint R e = stateFingerprint R e' ↔ e.contents R = e'.contents R := by
  constructor
  · intro heq
    ext r
    rw [← mem_recordsOf_allPairs h, ← mem_recordsOf_allPairs h']
    exact mem_iff_of_fingerprintRecords_eq hsha heq r
  · intro heq
    refine stateFingerprint_of_contents h (walked_allPairs h').nodup_keys.of_map fun r => ?_
    rw [heq, mem_recordsOf_allPairs h']

/-! ### The captured image -/

/-- A fresh engine that joins the records of an image holds exactly them. -/
theorem stateFingerprint_join_fresh (hnd : (xs.map IncomingEntry.key).Nodup) (seeds : BootSeeds) (nodeID : NodeID)
    (counter : UInt64) :
    stateFingerprint R ((newEngineAt seeds nodeID counter).join R (snapshotDelta xs)) = fingerprintRecords R xs := by
  have hpos : 0 < defaultShardCount := by decide
  have hwf : (newEngineAt seeds nodeID counter).WF R := Engine.wf_newEngine hpos _ _ _ _
  have hempty : (newEngineAt seeds nodeID counter).contents R = ∅ := Engine.contents_newEngine hpos _ _ _ _
  have hcarried : (snapshotDelta xs).carried = {x | x ∈ xs} := rfl
  have hinj := List.inj_on_of_nodup_map hnd
  refine stateFingerprint_of_contents (Engine.join_spec hwf _).1 hnd.of_map fun x => ?_
  rw [Engine.contents_join hwf _ (by
    rw [hempty, Set.empty_union, hcarried]
    exact fun a ha b hb hab => hinj ha hb hab), hempty, Set.empty_union, hcarried]
  rfl

/-- The image of a walk, written, read and joined into a fresh engine, has the fingerprint of the walk. -/
theorem stateFingerprint_join_image {pairs : List (EntityID × List CRDTEntry)} (hwalk : Walked pairs)
    {image : SnapshotImage} (himage : image.records = recordsOf pairs) (hmem : InMemory image.records) {data : Bytes}
    (hdata : encodeSnapshotImage image = .ok data) (seeds : BootSeeds) (nodeID : NodeID) (counter : UInt64) :
    ∃ decoded, (checkedDecodeSnapshotImage data).ending = .value decoded ∧
      stateFingerprint R ((newEngineAt seeds nodeID counter).join R (snapshotDelta decoded.records))
        = fingerprintRecords R image.records := by
  have hids : ∀ r ∈ image.records, r.entityID.length ≤ 0xFFFF := fun r hr =>
    (decode_encodeSnapshotImage hdata).2 r ((sortRecords_perm _).mem_iff.mpr hr)
  refine ⟨{ image with records := sortRecords image.records }, ?_, ?_⟩
  · rw [ending_eq (allocatable_encode hmem hids hdata), decode_encode hmem hdata]
    rfl
  · have hperm := sortRecords_perm image.records
    have hnd : ((sortRecords image.records).map IncomingEntry.key).Nodup :=
      (hperm.map _).nodup_iff.mpr (himage ▸ hwalk.nodup_keys)
    rw [stateFingerprint_join_fresh hnd]
    exact fingerprintRecords_congr hperm

/-! ### Agreement -/

/-- **Agreement of the fingerprints.**  For the image of every walk the writer's fingerprint is that of a fresh engine
that joined the decoded image; the order of records and entities does not matter; and two states have the same
fingerprint exactly when they hold the same `(entity, entry)` pairs, where SHA-256 has no collision on what is hashed
for them. -/
theorem state_fingerprint_agreement (R : Runtime) :
    (∀ pairs, Walked pairs → ∀ image : SnapshotImage, image.records = recordsOf pairs → InMemory image.records →
      ∀ data, encodeSnapshotImage image = .ok data → ∀ seeds nodeID counter,
        ∃ decoded, (checkedDecodeSnapshotImage data).ending = .value decoded ∧
          stateFingerprint R ((newEngineAt seeds nodeID counter).join R (snapshotDelta decoded.records))
            = fingerprintRecords R image.records) ∧
    (∀ xs ys : List SnapshotRecord, xs.Perm ys → fingerprintRecords R xs = fingerprintRecords R ys) ∧
    (∀ pairs pairs' : List (EntityID × List CRDTEntry), pairs.Perm pairs' →
      fingerprintRecords R (recordsOf pairs) = fingerprintRecords R (recordsOf pairs')) ∧
    ∀ e e' : Engine, e.WF R → e'.WF R → CollisionFree R (recordsOf e.allPairs) (recordsOf e'.allPairs) →
      (stateFingerprint R e = stateFingerprint R e' ↔ e.contents R = e'.contents R) := by
  refine ⟨fun pairs hwalk image himage hmem data hdata seeds nodeID counter =>
      stateFingerprint_join_image hwalk himage hmem hdata seeds nodeID counter,
    fun xs ys hperm => fingerprintRecords_congr hperm,
    fun pairs pairs' hperm => fingerprintRecords_congr (hperm.flatMap_right _),
    fun e e' h h' hsha => stateFingerprint_eq_iff h h' hsha⟩

/-- An engine of one shard that has joined one record, of a given entity. -/
def engineOfOne (entityID : EntityID) : Engine :=
  (newEngine 1 (fun _ => 0) 0 (.zero 16) 0).join .sample (snapshotDelta [⟨entityID, (sampleRecord 7).entry⟩])

theorem wf_engineOfOne (entityID : EntityID) : (engineOfOne entityID).WF .sample :=
  (Engine.join_spec (Engine.wf_newEngine Nat.one_pos _ _ _ _) _).1

set_option maxRecDepth 100000 in
theorem state_fingerprint_agreement_on_sample :
    (∃ decoded, (checkedDecodeSnapshotImage
        (snapshotHeader sampleImage ++ (sortRecords sampleImage.records).flatMap encodeRecord ++
          putU32 (crc32c (snapshotHeader sampleImage ++
            (sortRecords sampleImage.records).flatMap encodeRecord)))).ending = .value decoded ∧
      stateFingerprint .sample ((newEngineAt ⟨fun _ => 0, 0⟩ (.zero 16) 0).join .sample (snapshotDelta decoded.records))
        = fingerprintRecords .sample sampleImage.records) ∧
      stateFingerprint .sample (engineOfOne [0x61]) ≠ stateFingerprint .sample (engineOfOne [0x62]) := by
  constructor
  · refine (state_fingerprint_agreement .sample).1 [([0x65], [(sampleRecord 7).entry])] ⟨by decide, by simp⟩ _ rfl ?_
      _ (encode_ok (by decide)) ⟨fun _ => 0, 0⟩ (.zero 16) 0
    unfold InMemory
    decide
  · have hsha : CollisionFree .sample (recordsOf (engineOfOne [0x61]).allPairs)
        (recordsOf (engineOfOne [0x62]).allPairs) := ⟨by decide +kernel, by decide +kernel⟩
    intro heq
    have hcontents := ((state_fingerprint_agreement .sample).2.2.2 _ _ (wf_engineOfOne [0x61]) (wf_engineOfOne [0x62])
      hsha).mp heq
    have hmem : ⟨[0x61], (sampleRecord 7).entry⟩ ∈ recordsOf (engineOfOne [0x61]).allPairs := by decide +kernel
    rw [mem_recordsOf_allPairs (wf_engineOfOne _), hcontents, ← mem_recordsOf_allPairs (wf_engineOfOne _)] at hmem
    exact absurd hmem (by decide +kernel)

end Sovereign.Durability

import Sovereign.Durability.Recovery

/-!
# What recovery rebuilds

The loops of recovery join records in chunks.  `Rebuild.items` is what the engine and the open chunk
hold together: flushing does not change it and pushing a record adds it, so the loops add
exactly the records they do not skip (`replayTail_spec`, `repairHoles_spec`).

The second half is about images: an image without duplicate keys is joined into a fresh
engine without a skipped entry (`entriesSkipped_join_fresh`), and the root and the fingerprint of the
result are those of its records (`recordsOf_allPairs_perm`).
-/

namespace Sovereign.Durability

open Lib Sync Wal

variable {R : Runtime}
  {cut : Option UInt64} {x : SnapshotRecord} {pairs : List (EntityID × List CRDTEntry)}
  {img : SnapshotImage} {reason : Option FallbackReason}

namespace Rebuild

variable (R) in
/-- The records in the engine and in the open chunk. -/
def items (rb : Rebuild) : Set SnapshotRecord := rb.engine.contents R ∪ {x | x ∈ rb.chunk}

variable (R) in
/-- The engine is well formed and everything belongs to `U`. -/
structure Within (U : Set SnapshotRecord) (rb : Rebuild) : Prop where
  wf : rb.engine.WF R
  items_subset : rb.items R ⊆ U

theorem items_of_chunk_nil {rb : Rebuild} (h : rb.chunk = []) :
    rb.items R = rb.engine.contents R := by simp [items, h]

variable {U : Set SnapshotRecord}

variable {rb : Rebuild} {nodeID : NodeID} {recs : List WALRecord}

theorem flushChunk_spec (hU : Set.InjOn IncomingEntry.key U) (h : rb.Within R U) :
    (rb.flushChunk R).Within R U ∧ (rb.flushChunk R).items R = rb.items R ∧
      (rb.flushChunk R).chunk = [] := by
  rw [flushChunk]
  split
  · next hnil => exact ⟨h, rfl, hnil⟩
  · have hjoin : (rb.engine.join R (snapshotDelta rb.chunk)).contents R = rb.items R :=
      Engine.contents_join h.wf _ (hU.mono h.items_subset)
    have hitems : items R { rb with engine := rb.engine.join R (snapshotDelta rb.chunk), chunk := [] }
        = rb.items R := (items_of_chunk_nil rfl).trans hjoin
    exact ⟨⟨(Engine.join_spec h.wf _).1, hitems ▸ h.items_subset⟩, hitems, rfl⟩

theorem push_spec (hU : Set.InjOn IncomingEntry.key U) (h : rb.Within R U) {r : SnapshotRecord} (hr : r ∈ U) :
    (rb.push R r).Within R U ∧ (rb.push R r).items R = insert r (rb.items R) := by
  have hitems : items R { rb with chunk := rb.chunk ++ [r] } = insert r (rb.items R) := by
    ext x
    simp only [items, List.mem_append, List.mem_singleton, Set.mem_union, Set.mem_ofPred_eq,
      Set.mem_insert_iff]
    tauto
  have hwithin : Within R U { rb with chunk := rb.chunk ++ [r] } :=
    ⟨h.wf, hitems ▸ Set.insert_subset hr h.items_subset⟩
  simp only [push]
  split
  · obtain ⟨hw, heq, -⟩ := flushChunk_spec hU hwithin
    exact ⟨hw, heq.trans hitems⟩
  · exact ⟨hwithin, hitems⟩

theorem push_frame (rb : Rebuild) (r : SnapshotRecord) :
    (rb.push R r).holesRepaired = rb.holesRepaired := by
  simp only [push, flushChunk]
  split <;> [split; skip] <;> rfl

theorem flushChunk_holesRepaired (rb : Rebuild) :
    (rb.flushChunk R).holesRepaired = rb.holesRepaired := by
  rw [flushChunk]
  split <;> rfl

theorem items_advance (rb : Rebuild) (v : UInt64) (n : ℕ) :
    items R { rb with engine := rb.engine.advanceLamportTo R v, replayed := n } = rb.items R := by
  simp only [items, Engine.contents_advance]

/-- The mutations the loop over the log does not skip. -/
def inTail (cut : Option UInt64) (recs : List WALRecord) : List WALMutation :=
  (recs.filter fun rec => ¬ ∃ c ∈ cut, recordSeq rec < c).filterMap recordMutation?

/-- The mutations the repair loop restores. -/
def holes (cut : UInt64) (inImage : List CausalDot) (recs : List WALRecord) : List WALMutation :=
  ((recs.filter fun rec => recordSeq rec < cut).filterMap recordMutation?).filter
    fun m => dotOf m ∉ inImage

theorem replayRecord_spec (hU : Set.InjOn IncomingEntry.key U) {rec : WALRecord} (h : rb.Within R U)
    (hcheck : ∀ m ∈ recordMutation? rec, checkMutationRecord m nodeID = .ok ())
    (hin : ∀ m ∈ recordMutation? rec, restored nodeID m ∈ U) :
    ∃ rb', rb.replayRecord R nodeID rec = .ok rb' ∧ rb'.Within R U ∧
      rb'.items R = rb.items R ∪ {x | ∃ m ∈ recordMutation? rec, x = restored nodeID m} ∧
      rb'.holesRepaired = rb.holesRepaired := by
  cases rec with
  | clockAdvance v seq =>
    have hitems := items_advance (R := R) rb v (rb.replayed + 1)
    refine ⟨_, rfl, ⟨h.wf.advance v, hitems ▸ h.items_subset⟩, ?_, rfl⟩
    rw [hitems]
    simp [recordMutation?]
  | mutation recType m seq =>
    set rb₁ : Rebuild := { rb with legacyRecords := rb.legacyRecords + if m.legacy then 1 else 0 }
    obtain ⟨hw, hitems⟩ := push_spec hU (⟨h.wf, h.items_subset⟩ : rb₁.Within R U) (hin m rfl)
    refine ⟨{ rb₁.push R (restored nodeID m) with
        replayed := (rb₁.push R (restored nodeID m)).replayed + 1 }, ?_,
      ⟨hw.wf, hw.items_subset⟩, Eq.trans hitems ?_, push_frame rb₁ _⟩
    · simp only [replayRecord, hcheck m rfl]
      rfl
    · ext x
      simp [recordMutation?, items, rb₁, or_comm, or_left_comm]

theorem inTail_cons (cut : Option UInt64) (rec : WALRecord) (recs : List WALRecord) :
    inTail cut (rec :: recs)
      = (if ∃ c ∈ cut, recordSeq rec < c then [] else (recordMutation? rec).toList)
          ++ inTail cut recs := by
  rw [inTail]
  split
  · next hskip => rw [List.filter_cons_of_neg (by simpa using hskip)]; rfl
  · next hskip =>
    rw [List.filter_cons_of_pos (by simpa using hskip), List.filterMap_cons]
    cases recordMutation? rec <;> rfl

/-- **The loop over the log** joins the records it does not skip. -/
theorem replayTail_spec (hU : Set.InjOn IncomingEntry.key U) (h : rb.Within R U)
    (hcheck : ∀ m ∈ inTail cut recs, checkMutationRecord m nodeID = .ok ())
    (hin : ∀ m ∈ inTail cut recs, restored nodeID m ∈ U) :
    ∃ rb', replayTail R nodeID cut recs rb = .ok rb' ∧ rb'.Within R U ∧
      rb'.engine.contents R = rb.items R ∪ {x | x ∈ (inTail cut recs).map (restored nodeID)} ∧
      rb'.chunk = [] ∧ rb'.holesRepaired = rb.holesRepaired := by
  induction recs generalizing rb with
  | nil =>
    obtain ⟨hw, heq, hnil⟩ := flushChunk_spec hU h
    refine ⟨_, rfl, hw, ?_, hnil, flushChunk_holesRepaired rb⟩
    rw [← items_of_chunk_nil hnil, heq]
    simp [inTail]
  | cons rec recs ih =>
    rw [inTail_cons] at hcheck hin ⊢
    rw [replayTail]
    by_cases hskip : ∃ c ∈ cut, recordSeq rec < c
    · simp only [if_pos hskip, List.nil_append] at hcheck hin ⊢
      exact ih h hcheck hin
    simp only [if_neg hskip, List.mem_append, Option.mem_toList] at hcheck hin ⊢
    obtain ⟨rb₁, hok₁, hw₁, hitems₁, hholes₁⟩ := replayRecord_spec hU h
      (fun m hm => hcheck m (.inl hm)) fun m hm => hin m (.inl hm)
    obtain ⟨rb', hok, hw', hcontents, hnil, hholes⟩ :=
      ih hw₁ (fun m hm => hcheck m (.inr hm)) fun m hm => hin m (.inr hm)
    rw [hok₁]
    refine ⟨rb', hok, hw', ?_, hnil, hholes.trans hholes₁⟩
    rw [hcontents, hitems₁, Set.union_assoc]
    congr 1
    ext x
    simp [eq_comm]

theorem replayTail_total
    (hcheck : ∀ m ∈ inTail cut recs, checkMutationRecord m nodeID = .ok ()) (rb : Rebuild) :
    ∃ rb', replayTail R nodeID cut recs rb = .ok rb' := by
  induction recs generalizing rb with
  | nil => exact ⟨_, rfl⟩
  | cons rec recs ih =>
    rw [inTail_cons] at hcheck
    rw [replayTail]
    by_cases hskip : ∃ c ∈ cut, recordSeq rec < c
    · simp only [if_pos hskip, List.nil_append] at hcheck ⊢
      exact ih hcheck rb
    simp only [if_neg hskip, List.mem_append, Option.mem_toList] at hcheck ⊢
    have hrec : ∃ rb₁, rb.replayRecord R nodeID rec = .ok rb₁ := by
      cases rec with
      | clockAdvance v seq => exact ⟨_, rfl⟩
      | mutation recType m seq =>
        simp only [replayRecord, hcheck m (.inl rfl)]
        exact ⟨_, rfl⟩
    obtain ⟨rb₁, hok⟩ := hrec
    rw [hok]
    exact ih (fun m hm => hcheck m (.inr hm)) rb₁

theorem holes_cons (cut : UInt64) (inImage : List CausalDot) (rec : WALRecord)
    (recs : List WALRecord) :
    holes cut inImage (rec :: recs)
      = (recordMutation? rec).toList.filter (fun m => recordSeq rec < cut ∧ dotOf m ∉ inImage)
          ++ holes cut inImage recs := by
  rw [holes, holes]
  by_cases hseq : recordSeq rec < cut
  · rw [List.filter_cons_of_pos (by simpa using hseq), List.filterMap_cons]
    cases recordMutation? rec with
    | none => rfl
    | some m => by_cases himg : dotOf m ∈ inImage <;> simp [hseq, himg]
  · rw [List.filter_cons_of_neg (by simpa using hseq)]
    simp [hseq]

/-- **The repair loop** joins the mutations below the cut that the image lacks. -/
theorem repairHoles_spec (hU : Set.InjOn IncomingEntry.key U) {cut : UInt64}
    {inImage : List CausalDot} (h : rb.Within R U)
    (hcheck : ∀ m ∈ holes cut inImage recs, checkMutationRecord m nodeID = .ok ())
    (hin : ∀ m ∈ holes cut inImage recs, restored nodeID m ∈ U) :
    ∃ rb', repairHoles R nodeID cut inImage recs rb = .ok rb' ∧ rb'.Within R U ∧
      rb'.engine.contents R = rb.items R ∪ {x | x ∈ (holes cut inImage recs).map (restored nodeID)} ∧
      rb'.holesRepaired = rb.holesRepaired + (holes cut inImage recs).length := by
  induction recs generalizing rb with
  | nil =>
    obtain ⟨hw, heq, hnil⟩ := flushChunk_spec hU h
    refine ⟨_, rfl, hw, ?_, flushChunk_holesRepaired rb⟩
    rw [← items_of_chunk_nil hnil, heq]
    simp [holes]
  | cons rec recs ih =>
    rw [holes_cons] at hcheck hin ⊢
    rw [repairHoles]
    cases hm : recordMutation? rec with
    | none =>
      simp only [hm, Option.toList_none, List.filter_nil, List.nil_append] at hcheck hin ⊢
      exact ih h hcheck hin
    | some m =>
      simp only [hm, Option.toList_some, List.filter_cons, List.filter_nil] at hcheck hin ⊢
      by_cases hseq : cut ≤ recordSeq rec
      · have hnot : ¬ (recordSeq rec < cut ∧ dotOf m ∉ inImage) :=
          fun hlt => UInt64.not_lt.mpr hseq hlt.1
        simp only [hnot, decide_false, Bool.false_eq_true, if_false, List.nil_append] at hcheck hin ⊢
        rw [if_pos hseq]
        exact ih h hcheck hin
      rw [if_neg hseq]
      by_cases himg : dotOf m ∈ inImage
      · have hnot : ¬ (recordSeq rec < cut ∧ dotOf m ∉ inImage) := fun hlt => hlt.2 himg
        simp only [hnot, decide_false, Bool.false_eq_true, if_false, List.nil_append] at hcheck hin ⊢
        rw [if_pos himg]
        exact ih h hcheck hin
      have hlt : recordSeq rec < cut ∧ dotOf m ∉ inImage := ⟨UInt64.not_le.mp hseq, himg⟩
      simp only [hlt, not_false_eq_true, and_self, decide_true, if_true, List.singleton_append]
        at hcheck hin ⊢
      rw [if_neg id, hcheck m List.mem_cons_self]
      obtain ⟨hw, hitems⟩ := push_spec hU h (hin m List.mem_cons_self)
      have hw₁ : Within R U { rb.push R (restored nodeID m) with
          holesRepaired := (rb.push R (restored nodeID m)).holesRepaired + 1 } :=
        ⟨hw.wf, hw.items_subset⟩
      obtain ⟨rb', hok, hw', hcontents, hcount⟩ := ih hw₁
        (fun m' hm' => hcheck m' (List.mem_cons_of_mem _ hm'))
        fun m' hm' => hin m' (List.mem_cons_of_mem _ hm')
      refine ⟨rb', hok, hw', hcontents.trans ?_, ?_⟩
      · have hsame : items R { rb.push R (restored nodeID m) with
            holesRepaired := (rb.push R (restored nodeID m)).holesRepaired + 1 }
            = insert (restored nodeID m) (rb.items R) := hitems
        rw [hsame]
        ext x
        simp only [Set.mem_union, Set.mem_insert_iff, List.map_cons, List.mem_cons,
          Set.mem_ofPred_eq]
        tauto
      · have hone := push_frame (R := R) rb (restored nodeID m)
        simp only at hcount
        rw [hcount, hone, List.length_cons]
        omega

end Rebuild

/-! ### The records of an engine -/

theorem mem_recordsOf : x ∈ recordsOf pairs ↔ ∃ es, (x.entityID, es) ∈ pairs ∧ x.entry ∈ es := by
  simp only [recordsOf, List.mem_flatMap, List.mem_map]
  constructor
  · rintro ⟨⟨k, es⟩, hp, entry, hentry, rfl⟩
    exact ⟨es, hp, hentry⟩
  · rintro ⟨es, hp, hentry⟩
    exact ⟨(x.entityID, es), hp, x.entry, hentry, rfl⟩

theorem map_dot_recordsOf (pairs : List (EntityID × List CRDTEntry)) :
    (recordsOf pairs).map (fun r => r.entry.dot) = Engine.dotPairs pairs := by
  simp [recordsOf, Engine.dotPairs, List.map_flatMap, Function.comp_def]

/-- What a walk over the shards yields: every entity once, its entries by ascending dots. -/
structure Walked (pairs : List (EntityID × List CRDTEntry)) : Prop where
  nodup : (pairs.map Prod.fst).Nodup
  ascending : ∀ p ∈ pairs, Ascending compareDots CRDTEntry.dot p.2

theorem Walked.nodup_keys (h : Walked pairs) : ((recordsOf pairs).map IncomingEntry.key).Nodup := by
  rw [recordsOf, List.map_flatMap, List.nodup_flatMap]
  constructor
  · intro p hp
    rw [List.map_map]
    refine List.pairwise_map.mpr (List.Pairwise.imp (fun {a b} hab => ?_) (h.ascending p hp))
    exact fun heq => ne_of_cmp_lt hab (congrArg Prod.snd heq)
  · have hne : pairs.Pairwise fun a b => a.1 ≠ b.1 := List.pairwise_map.mp h.nodup
    refine hne.imp fun {a b} hab x hxa hxb => hab ?_
    simp only [List.map_map, List.mem_map, Function.comp_apply] at hxa hxb
    obtain ⟨ea, -, rfl⟩ := hxa
    obtain ⟨eb, -, heq⟩ := hxb
    exact (congrArg Prod.fst heq).symm

variable {e : Engine} {records : List SnapshotRecord}

theorem walked_allPairs (h : e.WF R) : Walked e.allPairs := by
  refine ⟨Engine.ShardsWF.nodup_walk h, fun p hp => ?_⟩
  rw [← h.pointGet_of_mem hp]
  exact h.ascending_pointGet p.1

theorem mem_recordsOf_allPairs (h : e.WF R) : x ∈ recordsOf e.allPairs ↔ x ∈ e.contents R := by
  rw [mem_recordsOf, Engine.mem_contents]
  constructor
  · rintro ⟨es, hp, hx⟩
    rwa [h.pointGet_of_mem hp]
  · intro hx
    exact ⟨_, (Engine.ShardsWF.mem_walk_iff h).mpr ⟨rfl, List.ne_nil_of_mem hx⟩, hx⟩

/-- The walk over an engine meets exactly the records of its contents, once each. -/
theorem recordsOf_allPairs_perm (h : e.WF R)
    (hnd : records.Nodup) (hmem : ∀ x, x ∈ e.contents R ↔ x ∈ records) :
    (recordsOf e.allPairs).Perm records := by
  have hnd' : (recordsOf e.allPairs).Nodup := (walked_allPairs h).nodup_keys.of_map
  exact (List.perm_ext_iff_of_nodup hnd' hnd).mpr fun x => (mem_recordsOf_allPairs h).trans (hmem x)

theorem merkleRootFromShards_of_contents (h : e.WF R)
    (hnd : records.Nodup) (hmem : ∀ x, x ∈ e.contents R ↔ x ∈ records) :
    e.merkleRootFromShards R = Engine.hashDotPairs R (records.map fun r => r.entry.dot) := by
  rw [Engine.merkleRootFromShards, ← map_dot_recordsOf]
  exact Engine.hashDotPairs_congr ((recordsOf_allPairs_perm h hnd hmem).map _)

theorem stateFingerprint_of_contents (h : e.WF R)
    (hnd : records.Nodup) (hmem : ∀ x, x ∈ e.contents R ↔ x ∈ records) :
    stateFingerprint R e = fingerprintRecords R records :=
  fingerprintRecords_congr (recordsOf_allPairs_perm h hnd hmem)

/-! ### Joining an image into a fresh engine -/

theorem mergeAdded_nil (incoming : List CRDTEntry) :
    Engine.mergeAdded [] incoming = incoming.length := by
  rw [Engine.mergeAdded, Engine.mergeEntries, merge_nil_left]
  simp

/-- Blocks of distinct entities that a shard does not know are merged without a skipped entry. -/
theorem perShardMerge_skipped {s : HAMT} (hs : s.WF R) {batches : List (EntityID × List CRDTEntry)}
    (hnd : (batches.map Prod.fst).Nodup) (hnew : ∀ b ∈ batches, s.get R b.1 = []) :
    (Engine.perShardMerge R s batches).2.2 = 0 := by
  have hgen : ∀ (batches : List (EntityID × List CRDTEntry)) (acc : HAMT × ℕ × ℕ), acc.1.WF R →
      (batches.map Prod.fst).Nodup → (∀ b ∈ batches, acc.1.get R b.1 = []) → acc.2.2 = 0 →
      (batches.foldl
        (fun acc b =>
          let added := Engine.mergeAdded (acc.1.get R b.1) b.2
          (Engine.mergeExistingDot R acc.1 b.1 b.2, acc.2.1 + added,
            acc.2.2 + (b.2.length - added)))
        acc).2.2 = 0 := by
    intro batches
    induction batches with
    | nil => exact fun _ _ _ _ h => h
    | cons b bs ih =>
      intro acc hwf hnd hnew hzero
      obtain ⟨hb, hnd⟩ := List.nodup_cons.mp (List.map_cons (f := Prod.fst) ▸ hnd)
      obtain ⟨hwf', hget⟩ := Engine.mergeExistingDot_spec hwf b.1 b.2
      refine ih _ hwf' hnd (fun c hc => ?_) ?_
      · have hne : c.1 ≠ b.1 := fun heq => hb (heq ▸ List.mem_map_of_mem hc)
        rw [hget, if_neg hne]
        exact hnew c (List.mem_cons_of_mem _ hc)
      · simp only [hnew b List.mem_cons_self, mergeAdded_nil, hzero]
        omega
  exact hgen batches (s, 0, 0) hs hnd hnew rfl

theorem length_sortedIncoming {incoming : List IncomingEntry}
    (hnd : (incoming.map IncomingEntry.key).Nodup) :
    (Engine.sortedIncoming R incoming).length = incoming.length := by
  have hinj := List.inj_on_of_nodup_map hnd
  refine ((List.perm_ext_iff_of_nodup
    (Engine.sortedIncoming_ascending (R := R) incoming).nodup hnd.of_map).mpr fun x => ?_).length_eq
  refine ⟨Engine.mem_of_mem_sortedIncoming, fun hx => ?_⟩
  obtain ⟨y, hy, hkey⟩ := Engine.exists_key_sortedIncoming (R := R) hx
  exact hinj (Engine.mem_of_mem_sortedIncoming hy) hx hkey ▸ hy

/-- **A fresh engine skips nothing** of a delta whose keys are distinct. -/
theorem entriesSkipped_join_fresh {n : ℕ} (seeds : ℕ → Seed) (routeSeed : Seed)
    (node : NodeID) (counter : UInt64) {delta : CRDTDelta}
    (hnd : (delta.entries.map IncomingEntry.key).Nodup) :
    ((newEngine n seeds routeSeed node counter).join R delta).entriesSkipped = 0 := by
  set e := newEngine n seeds routeSeed node counter with he
  have hobs : ∀ (xs : List IncomingEntry) (e : Engine),
      (e.observeAll R xs).entriesSkipped = e.entriesSkipped := by
    intro xs
    induction xs with
    | nil => exact fun _ => rfl
    | cons x xs ih =>
      intro e
      refine (ih (e.advanceLamportTo R x.entry.dotCounter)).trans ?_
      rw [Engine.advanceLamportTo]
      split <;> rfl
  have hzero : (e.observeAll R delta.entries).entriesSkipped = 0 := (hobs _ e).trans rfl
  have hshards : (e.observeAll R delta.entries).shards = initShards n seeds :=
    (Engine.observeAll_frame (R := R) e delta.entries).1
  rw [Engine.join, ← Engine.observeAll]
  split
  · exact hzero
  simp only [hzero, length_sortedIncoming hnd, Nat.sub_self]
  -- no shard skips an entry
  have hsum : ∀ l : List ℕ, (∀ x ∈ l, x = 0) → l.sum = 0 := fun l hl => List.sum_eq_zero hl
  rw [hsum]
  · rfl
  intro x hx
  simp only [List.mem_map, List.mapIdx_eq_zipIdx_map, hshards] at hx
  obtain ⟨m, ⟨⟨s, i⟩, hs, rfl⟩, rfl⟩ := hx
  obtain ⟨j, -, rfl⟩ := List.mem_map.mp (List.mem_of_getElem? (List.mem_zipIdx_iff_getElem?.mp hs))
  refine perShardMerge_skipped (HAMT.wf_new (seeds j)) ?_ fun b _ => HAMT.get_new (seeds j) b.1
  exact (Engine.entityBlocks_spec (R := R) delta.entries).1.sublist (List.filter_sublist.map _)

/-- What a faithful image is: distinct keys, and the root of its records. -/
structure SnapshotImage.Faithful (R : Runtime) (img : SnapshotImage) : Prop where
  nodup_keys : (img.records.map IncomingEntry.key).Nodup
  root : img.merkleRoot = Engine.hashDotPairs R (img.records.map fun r => r.entry.dot)

/-- The checks on an image pass if it is faithful and the checkpoint was taken of it. -/
theorem loadImage_ok {rep : Replayed} (hfaithful : img.Faithful R)
    (hroot : rep.finalCheckpt.merkleRoot = img.merkleRoot) (hprint : rep.finalCheckpt.hasFingerprint = true →
      rep.finalCheckpt.fingerprint = fingerprintRecords R img.records)
    (seeds : BootSeeds) (nodeID : NodeID) (counter : UInt64) :
    ∃ e, loadImage R rep (newEngineAt seeds nodeID counter) img = .ok e ∧ e.WF R ∧
      e.contents R = {x | x ∈ img.records} := by
  have hpos : 0 < defaultShardCount := by decide
  have hinj := List.inj_on_of_nodup_map hfaithful.nodup_keys
  have hnd : img.records.Nodup := hfaithful.nodup_keys.of_map
  have hwf : (newEngineAt seeds nodeID counter).WF R := Engine.wf_newEngine hpos _ _ _ _
  have hempty : (newEngineAt seeds nodeID counter).contents R = ∅ :=
    Engine.contents_newEngine hpos _ _ _ _
  have hcarried : (snapshotDelta img.records).carried = {x | x ∈ img.records} := rfl
  have hcontents : ((newEngineAt seeds nodeID counter).join R (snapshotDelta img.records)).contents R
      = {x | x ∈ img.records} := by
    rw [Engine.contents_join hwf _ (by
      rw [hempty, Set.empty_union, hcarried]
      exact fun a ha b hb hab => hinj ha hb hab), hempty, Set.empty_union, hcarried]
  have hwf' := (Engine.join_spec hwf (snapshotDelta img.records)).1
  have hmem : ∀ x, x ∈ ((newEngineAt seeds nodeID counter).join R
      (snapshotDelta img.records)).contents R ↔ x ∈ img.records := fun x => by rw [hcontents]; rfl
  refine ⟨_, ?_, hwf', hcontents⟩
  rw [loadImage]
  have hskip : ((newEngineAt seeds nodeID counter).join R
      (snapshotDelta img.records)).entriesSkipped = 0 :=
    entriesSkipped_join_fresh _ _ _ _ hfaithful.nodup_keys
  rw [if_neg (by rw [hskip]; simp), merkleRootFromShards_of_contents hwf' hnd hmem,
    stateFingerprint_of_contents hwf' hnd hmem, hroot, hfaithful.root]
  split
  · next hfp =>
    rw [hprint hfp]
    simp
  · rfl

/-! ### The whole of recovery -/

theorem inTail_none (recs : List WALRecord) :
    Rebuild.inTail none recs = recs.filterMap recordMutation? := by
  simp [Rebuild.inTail]

/-- The mutations among the ordered records of a log are those of the log. -/
theorem filterMap_orderedFrom (n : ℕ) (es : List LogEntry) :
    (orderedFrom n es).filterMap recordMutation? = es.filterMap LogEntry.mutation? := by
  have hone : ∀ (e : LogEntry) (seq : UInt64),
      (e.toRecord seq).bind recordMutation? = e.mutation? := fun e seq => by cases e <;> rfl
  have hfst : (fun p : LogEntry × ℕ => p.1.mutation?) = LogEntry.mutation? ∘ Prod.fst := rfl
  simp only [orderedFrom, List.filterMap_filterMap, hone]
  rw [hfst, ← List.filterMap_map, List.zipIdx_map_fst]

variable {seeds : BootSeeds} {nodeID : NodeID} {file : Bytes} {store : Option SnapshotStore}
  {rep : Replayed} {wal : WAL} {rb : Rebuild}

theorem rebuild_none
    (h : Rebuild.replayTail R nodeID none rep.ordered
      ⟨newEngineAt seeds nodeID (rebuiltInitial rep), [], 0, 0, 0⟩ = .ok rb) :
    rebuild R rep seeds nodeID none
      = .ok { rb with engine := rb.engine.advanceLamportTo R (rebuiltInitial rep) } := by
  simp only [rebuild, h]

theorem recover_exact (hreplay : replayWAL file = .ok rep) (hopen : openWAL file = .ok wal)
    (husable : usableImage rep nodeID store = .error reason)
    (hrebuild : rebuild R rep seeds nodeID none = .ok rb) :
    ∃ out, recoverEngineWithSnapshot R seeds nodeID (some file) store = .ok out ∧
      out.engine = rb.engine ∧ out.rep = rep := by
  rw [recoverEngineWithSnapshot]
  simp only [hreplay, husable, hrebuild, hopen, Option.isSome_none, Bool.and_false, Bool.false_and,
    Bool.false_eq_true, false_and, if_false]
  exact ⟨_, rfl, rfl, rfl⟩

theorem recover_refuses (hreplay : replayWAL file = .ok rep)
    (husable : usableImage rep nodeID store = .error reason)
    {recType : WALRecordType} {m : WALMutation} {seq : UInt64} {recs : List WALRecord}
    (hfirst : rep.ordered = .mutation recType m seq :: recs) {err : RecordError}
    (hcheck : checkMutationRecord m nodeID = .error err) :
    recoverEngineWithSnapshot R seeds nodeID (some file) store = .error (.record err) := by
  rw [recoverEngineWithSnapshot]
  simp only [hreplay, husable, rebuild, hfirst, Rebuild.replayTail, Rebuild.replayRecord, hcheck]
  simp

/-- Recovery from an image succeeds if the records are accepted and, where it is checked, the root of
the result is that of the checkpoint. -/
theorem recover_bounded (hreplay : replayWAL file = .ok rep) (hopen : openWAL file = .ok wal)
    (husable : usableImage rep nodeID store = .ok img)
    (hrebuild : rebuild R rep seeds nodeID (some img) = .ok rb)
    (hroot : checkpointFinal rep = true → rb.holesRepaired = 0 →
      rb.engine.merkleRootFromShards R = rep.finalCheckpt.merkleRoot) :
    ∃ out, recoverEngineWithSnapshot R seeds nodeID (some file) store = .ok out ∧
      out.engine = rb.engine ∧ out.rep = rep := by
  rw [recoverEngineWithSnapshot]
  simp only [hreplay, husable, hrebuild, hopen]
  rw [if_neg]
  · exact ⟨_, rfl, rfl, rfl⟩
  · rintro ⟨harmed, hne⟩
    simp only [Bool.and_eq_true, decide_eq_true_eq] at harmed
    exact hne (hroot harmed.1.1.2 harmed.2)

end Sovereign.Durability

import Sovereign.Durability.NodeInvariant

/-!
# Recovery after a crash

A node crashes in a state that some interleaving of its calls has reached.  The log file is cut at any
byte behind what a completed flush covers; the images are those in the store.

What survives of the log is a first part of its entries, with every acknowledged mutation
(`Inv.acked_survive`).  The full replay holds exactly the items of the surviving mutations
(`Inv.recover_full`).  An image that recovery uses was captured for the very checkpoint it is bound to
(`Inv.image_of_checkpoint`), its local entries are items of surviving mutations, and those it lacks
are in the tail or are restored, so the bounded recovery has the same local entries
(`Inv.recover_bounded_local`).

Beyond the limits of recovery the contract fails: `acknowledged_write_lost_to_boot` is an
acknowledged write after which the node does not boot again.
-/

namespace Sovereign.Durability

open Lib Sync Wal

variable {R : Runtime} {r : Replica} {objects : Objects}

/-! ### What survives -/

def itemsOf (ms : List WALMutation) : Set SnapshotRecord := {x | ∃ m ∈ ms, x = itemOf m}

variable {node : NodeID} {m : WALMutation}

theorem Issued.readBack (h : Issued node m) : m.readBack = m := by
  obtain ⟨id, counter, entry, rfl⟩ := h.built
  rfl

theorem Issued.restored_eq (h : Issued node m) : restored node m = itemOf m := by
  obtain ⟨id, counter, entry, rfl⟩ := h.built
  rfl

theorem Issued.check (h : Issued node m)
    (hvalid : validateV2 m = .ok ()) : checkMutationRecord m node = .ok () :=
  (WrittenBy.check_iff ⟨h.built, hvalid⟩).mpr h.acceptable.2

namespace Node.Inv

variable {s : Node} {issued : List WALMutation} {es : List LogEntry} {acked : List WALMutation}

variable {n : ℕ} {img : SnapshotImage} {m : WALMutation} {rep : Replayed}
  {pairs : List (EntityID × List CRDTEntry)} {recs : List WALRecord}

section
variable (h : s.Inv R r issued es acked)
include h

theorem fits : ∀ e ∈ es, e.Fits := by
  intro e he
  cases e with
  | mutation m => exact (h.minted m (h.log.mutations m he).1).1.acceptable.1
  | checkpoint c => exact LogEntry.fits_of_not_mutation (by simp)
  | clockAdvance v => exact LogEntry.fits_of_not_mutation (by simp)

/-- Two issued mutations of one dot are one. -/
theorem eq_of_dot {m' : WALMutation} (hm : m ∈ issued) (hm' : m' ∈ issued)
    (hdot : (itemOf m).entry.dot = (itemOf m').entry.dot) : m = m' := by
  rw [(h.minted m hm).1.dot.1, (h.minted m' hm').1.dot.1] at hdot
  exact h.unique m hm m' hm' (congrArg CausalDot.counter hdot)

/-- The mutations that survive a crash at byte `n`. -/
def survivors (es : List LogEntry) (n : ℕ) : List WALMutation :=
  (surviving 0 (n - 8) es).filterMap LogEntry.mutation?

theorem mem_survivors : m ∈ survivors es n ↔ .mutation m ∈ surviving 0 (n - 8) es := by
  rw [survivors, List.mem_filterMap]
  have hread : ∀ m', .mutation m' ∈ surviving 0 (n - 8) es → m'.readBack = m' := fun m' hm' =>
    (h.minted m' (h.log.mutations m' ((surviving_initial 0 _ es).subset hm')).1).1.readBack
  constructor
  · rintro ⟨e, he, heq⟩
    cases e with
    | mutation m' =>
      have hm : m'.readBack = m := Option.some.inj heq
      rw [hread m' he] at hm
      exact hm ▸ he
    | checkpoint c => cases heq
    | clockAdvance v => cases heq
  · exact fun hm => ⟨_, hm, congrArg some (hread m hm)⟩

theorem issued_of_survivor (hm : m ∈ survivors es n) : m ∈ issued ∧ checkMutationRecord m r.nodeID = .ok () := by
  have hlog := h.log.mutations m ((surviving_initial 0 _ es).subset (h.mem_survivors.mp hm))
  exact ⟨hlog.1, (h.minted m hlog.1).1.check hlog.2⟩

theorem acked_survive (hn : s.synced ≤ n) : ∀ m ∈ acked, m ∈ survivors es n := by
  intro m hm
  obtain ⟨pre, post, rfl, hle⟩ := h.acked m hm
  have hhead : fileHeader.length = 8 := by decide
  have hlen : (records 0 (pre ++ [.mutation m])).length ≤ n - 8 := by omega
  have hpre := prefix_surviving hlen post
  rw [h.mem_survivors]
  have heq : pre ++ .mutation m :: post = pre ++ [.mutation m] ++ post := by simp
  rw [heq]
  exact hpre.subset (by simp)

/-- **Replay after a crash.** -/
theorem replay (hn : s.synced ≤ n) :
    ∃ rep wal, replayWAL (s.wal.file.take n) = .ok rep ∧ openWAL (s.wal.file.take n) = .ok wal ∧
      rep.mutations = survivors es n ∧
      rep.ordered.filterMap recordMutation? = survivors es n ∧
      (rep.hasCheckpoint = true → ∃ c clock, .checkpoint c ∈ es ∧
        rep.finalCheckpt = { c.readBack with clockHigh := clock }) := by
  have hhead : fileHeader.length = 8 := by decide
  have hcut : 8 ≤ n := hhead ▸ h.header.trans hn
  obtain ⟨wal, hopen, -⟩ := openWAL_take h.holds h.fits hcut
  obtain ⟨hmut, -, hord⟩ := Replayed.empty.addAll_lists 0 (surviving 0 (n - 8) es)
  refine ⟨_, wal, replayWAL_take h.holds h.fits hcut, hopen, hmut, ?_, fun hck => ?_⟩
  · exact (congrArg (List.filterMap recordMutation?) hord).trans (filterMap_orderedFrom 0 _)
  · have hlast := Replayed.empty.addAll_checkpoint 0 (surviving 0 (n - 8) es)
    split at hlast
    · next i c heq =>
      obtain ⟨-, -, clock, hfinal, -⟩ := hlast
      have hmem := List.mem_of_getElem? (lastCheckpoint_mem heq).2
      exact ⟨c, clock, (surviving_initial 0 _ es).subset hmem, hfinal⟩
    · exact absurd (hlast.1.symm.trans hck) (by simp [Replayed.empty])

theorem injOn_itemsOf_issued : Set.InjOn IncomingEntry.key (itemsOf issued) := by
  rintro x ⟨m, hm, rfl⟩ y ⟨m', hm', rfl⟩ hkey
  rw [h.eq_of_dot hm hm' (congrArg Prod.snd hkey)]

theorem map_restored {ms : List WALMutation}
    (hms : ∀ m ∈ ms, m ∈ issued) : {x | x ∈ ms.map (restored r.nodeID)} = itemsOf ms := by
  ext x
  simp only [itemsOf, Set.mem_ofPred_eq, List.mem_map]
  constructor
  · rintro ⟨m, hm, rfl⟩
    exact ⟨m, hm, (h.minted m (hms m hm)).1.restored_eq⟩
  · rintro ⟨m, hm, rfl⟩
    exact ⟨m, hm, (h.minted m (hms m hm)).1.restored_eq⟩

/-- **The full replay** holds the items of the surviving mutations. -/
theorem recover_full (hord : rep.ordered.filterMap recordMutation? = survivors es n) (seeds : BootSeeds) :
    ∃ rb, rebuild R rep seeds r.nodeID none = .ok rb ∧
      rb.engine.contents R = itemsOf (survivors es n) := by
  have hpos : 0 < defaultShardCount := by decide
  have htail : Rebuild.inTail none rep.ordered = survivors es n := by rw [inTail_none, hord]
  have hempty : (⟨newEngineAt seeds r.nodeID (rebuiltInitial rep), [], 0, 0, 0⟩ : Rebuild).items R = ∅ := by
    rw [Rebuild.items_of_chunk_nil rfl]
    exact Engine.contents_newEngine hpos _ _ _ _
  obtain ⟨rb, hrb, -, hcontents, -⟩ := Rebuild.replayTail_spec h.injOn_itemsOf_issued
    (⟨Engine.wf_newEngine hpos _ _ _ _, hempty ▸ Set.empty_subset _⟩ :
      Rebuild.Within R (itemsOf issued)
        ⟨newEngineAt seeds r.nodeID (rebuiltInitial rep), [], 0, 0, 0⟩)
    (fun m hm => (h.issued_of_survivor (htail ▸ hm)).2) fun m hm => by
      have hm' := (h.issued_of_survivor (htail ▸ hm)).1
      exact ⟨m, hm', (h.minted m hm').1.restored_eq⟩
  refine ⟨_, rebuild_none hrb, ?_⟩
  rw [Engine.contents_advance, hcontents, hempty, htail, Set.empty_union,
    h.map_restored fun m hm => (h.issued_of_survivor hm).1]

end

/-! ### The image -/

theorem loaded {lamportHigh : UInt64} (h : loadSnapshotImage objects lamportHigh = .ok img) :
    ∃ data, objects lamportHigh = some data ∧ decodeSnapshotImage data = .ok img := by
  rw [loadSnapshotImage] at h
  split at h
  · cases h
  next data hdata =>
  split at h
  · cases h
  next image hdecode =>
  split at h
  · cases h
  · cases h
    exact ⟨data, hdata, hdecode⟩

/-- An image that passes the binding has the cut and the root of the checkpoint. -/
theorem selected (h : selectImage rep (localFS objects) = .ok img) : rep.hasCheckpoint = true ∧
      loadSnapshotImage objects rep.finalCheckpt.lamportHigh = .ok img ∧
      (rep.finalCheckpt.hasCutSeq = true → img.cutSeq = rep.finalCheckpt.cutSeq ∧
        img.merkleRoot = rep.finalCheckpt.merkleRoot) := by
  rw [selectImage] at h
  split at h
  · next hck =>
    simp only [localFS] at h
    split at h
    · cases h
    · cases h
    · split at h
      · cases h
      next img' hload =>
      split at h
      · cases h
      split at h
      · cases h
      next hbind =>
      cases h
      refine ⟨hck, hload, fun hcut => ?_⟩
      by_contra hne
      exact hbind ⟨hcut, by tauto⟩
  · cases h

theorem faithful_of_captured {node : NodeID} (hcap : Captured node issued pairs)
    (hperm : img.records.Perm (recordsOf pairs))
    (hroot : img.merkleRoot = Engine.hashDotPairs R (Engine.dotPairs pairs)) : img.Faithful R := by
  refine ⟨(hperm.map _).nodup_iff.mpr (Walked.nodup_keys ⟨hcap.nodup, hcap.ascending⟩), ?_⟩
  rw [hroot, ← map_dot_recordsOf]
  exact Engine.hashDotPairs_congr (hperm.map _).symm

/-- **The image recovery uses** was captured for the checkpoint it is bound to. -/
theorem image_of_checkpoint (h : s.Inv R r issued es acked)
    (hfinal : rep.hasCheckpoint = true → ∃ c clock, .checkpoint c ∈ es ∧
      rep.finalCheckpt = { c.readBack with clockHigh := clock })
    (hselect : selectImage rep (localFS s.objects) = .ok img) :
    ∃ pairs, Captured r.nodeID issued pairs ∧ img.records.Perm (recordsOf pairs) ∧ img.Faithful R ∧
      rep.finalCheckpt.merkleRoot = img.merkleRoot ∧
      (rep.finalCheckpt.hasFingerprint = true →
        rep.finalCheckpt.fingerprint = fingerprintRecords R img.records) := by
  obtain ⟨hck, hload, hbind⟩ := selected hselect
  obtain ⟨data, hdata, hdecode⟩ := loaded hload
  obtain ⟨pairs, cutSeq, clock', hcap, hmem', hencode, -⟩ := h.objects _ data hdata
  obtain rfl := loaded_of_encode hencode hdecode
  obtain ⟨c, clock, hmem, heq⟩ := hfinal hck
  -- the checkpoint of the image has the same cut, so it is the final one
  obtain ⟨i, hi⟩ := List.getElem?_of_mem hmem
  have hcut : c.hasCutSeq = true := (h.log.cuts i c hi).1
  have hread : c.readBack.cutSeq = c.cutSeq ∧ c.readBack.hasCutSeq = true := by
    simp [WALCheckpoint.readBack, hcut]
  obtain ⟨hcutEq, hrootEq⟩ := hbind (by rw [heq]; exact hread.2)
  have hsame : c = checkpointOf R r.nodeID pairs cutSeq clock' true := by
    refine h.log.eq_of_cutSeq hmem hmem' ?_
    rw [heq] at hcutEq
    exact (hcutEq.trans hread.1).symm
  have hperm : (sortRecords (recordsOf pairs)).Perm (recordsOf pairs) := sortRecords_perm _
  refine ⟨pairs, hcap, hperm, faithful_of_captured hcap hperm rfl, hrootEq.symm, fun _ => ?_⟩
  rw [heq, hsame]
  exact fingerprintRecords_congr hperm.symm

/-- A record of a captured image with the dot of an issued mutation is its item. -/
theorem eq_itemOf_of_dot (h : s.Inv R r issued es acked) (hcap : Captured r.nodeID issued pairs)
    {records : List SnapshotRecord} (hperm : records.Perm (recordsOf pairs)) (hm : m ∈ issued)
    {y : SnapshotRecord} (hy : y ∈ records) (hdot : y.entry.dot = dotOf m) : y = itemOf m := by
  obtain ⟨hitem, hdotOf⟩ := (h.minted m hm).1.dot
  have hlocal : y.entry.dotNodeID = r.nodeID := congrArg CausalDot.nodeID (hdot.trans hdotOf)
  obtain ⟨m', hm', rfl⟩ := hcap.issued y (hperm.mem_iff.mp hy) hlocal
  rw [h.eq_of_dot hm' hm (hdot.trans (hdotOf.trans hitem.symm))]

theorem injOn_with_image (h : s.Inv R r issued es acked) (hcap : Captured r.nodeID issued pairs)
    {records : List SnapshotRecord} (hperm : records.Perm (recordsOf pairs)) :
    Set.InjOn IncomingEntry.key (itemsOf issued ∪ {x | x ∈ records}) := by
  have hinj := List.inj_on_of_nodup_map
    ((hperm.map _).nodup_iff.mpr (Walked.nodup_keys ⟨hcap.nodup, hcap.ascending⟩))
  have hmix : ∀ x ∈ itemsOf issued, ∀ y ∈ records, x.key = y.key → x = y := by
    rintro x ⟨m, hm, rfl⟩ y hy hkey
    obtain ⟨hitem, hdotOf⟩ := (h.minted m hm).1.dot
    have hdot : (itemOf m).entry.dot = y.entry.dot := congrArg Prod.snd hkey
    exact (h.eq_itemOf_of_dot hcap hperm hm hy (hdot.symm.trans (hitem.trans hdotOf.symm))).symm
  rintro x (hx | hx) y (hy | hy) hkey
  · exact h.injOn_itemsOf_issued hx hy hkey
  · exact hmix x hx y hy hkey
  · exact (hmix y hy x hx hkey.symm).symm
  · exact hinj hx hy hkey

/-- A surviving mutation is in the tail, in the image, or restored as a hole. -/
theorem tail_image_or_hole (cut : UInt64) (inImage : List CausalDot) (hm : m ∈ recs.filterMap recordMutation?) :
    m ∈ Rebuild.inTail (some cut) recs ∨ dotOf m ∈ inImage ∨ m ∈ Rebuild.holes cut inImage recs := by
  obtain ⟨rec, hrec, hsome⟩ := List.mem_filterMap.mp hm
  by_cases hseq : recordSeq rec < cut
  · by_cases himg : dotOf m ∈ inImage
    · exact .inr (.inl himg)
    · refine .inr (.inr (List.mem_filter.mpr ⟨?_, by simpa using himg⟩))
      exact List.mem_filterMap.mpr ⟨rec, List.mem_filter.mpr ⟨hrec, by simpa using hseq⟩, hsome⟩
  · refine .inl (List.mem_filterMap.mpr ⟨rec, List.mem_filter.mpr ⟨hrec, ?_⟩, hsome⟩)
    simpa using UInt64.not_lt.mp hseq

theorem inTail_subset (cut : Option UInt64) :
    ∀ m ∈ Rebuild.inTail cut recs, m ∈ recs.filterMap recordMutation? := fun m hm => by
  obtain ⟨rec, hrec, hsome⟩ := List.mem_filterMap.mp hm
  exact List.mem_filterMap.mpr ⟨rec, (List.mem_filter.mp hrec).1, hsome⟩

theorem holes_subset (cut : UInt64) (inImage : List CausalDot) :
    ∀ m ∈ Rebuild.holes cut inImage recs, m ∈ recs.filterMap recordMutation? := fun m hm => by
  obtain ⟨rec, hrec, hsome⟩ := List.mem_filterMap.mp (List.mem_filter.mp hm).1
  exact List.mem_filterMap.mpr ⟨rec, (List.mem_filter.mp hrec).1, hsome⟩

/-- **The bounded recovery**: it succeeds, and its local entries are the surviving items. -/
theorem recover_bounded_local (h : s.Inv R r issued es acked) (hmut : rep.mutations = survivors es n)
    (hord : rep.ordered.filterMap recordMutation? = survivors es n) (hcap : Captured r.nodeID issued pairs)
    (hperm : img.records.Perm (recordsOf pairs)) (hfaithful : img.Faithful R)
    (hroot : rep.finalCheckpt.merkleRoot = img.merkleRoot)
    (hprint : rep.finalCheckpt.hasFingerprint = true →
      rep.finalCheckpt.fingerprint = fingerprintRecords R img.records)
    (hphantom : phantoms rep r.nodeID img = 0) (seeds : BootSeeds) :
    ∃ rb, rebuild R rep seeds r.nodeID (some img) = .ok rb ∧
      (checkpointFinal rep = true → rb.holesRepaired = 0 →
        rb.engine.merkleRootFromShards R = rep.finalCheckpt.merkleRoot) ∧
      ∀ x : SnapshotRecord, x.entry.dotNodeID = r.nodeID →
        (x ∈ rb.engine.contents R ↔ x ∈ itemsOf (survivors es n)) := by
  have hU := h.injOn_with_image hcap hperm
  have hin : ∀ m ∈ rep.ordered.filterMap recordMutation?,
      m ∈ issued ∧ checkMutationRecord m r.nodeID = .ok () ∧
        restored r.nodeID m ∈ itemsOf issued ∪ {x | x ∈ img.records} := fun m hm => by
    obtain ⟨hiss, hcheck⟩ := h.issued_of_survivor (hord ▸ hm)
    exact ⟨hiss, hcheck, .inl ⟨m, hiss, (h.minted m hiss).1.restored_eq⟩⟩
  obtain ⟨e, hload, hwf, he⟩ := loadImage_ok hfaithful hroot hprint seeds r.nodeID (rebuiltInitial rep)
  have hitems : (⟨e, [], 0, 0, 0⟩ : Rebuild).items R = {x | x ∈ img.records} := by
    rw [Rebuild.items_of_chunk_nil rfl, he]
  -- the tail, then the holes
  obtain ⟨rb₁, hrb₁, hwithin₁, hcontents₁, hnil₁, hholes₁⟩ := Rebuild.replayTail_spec hU
    (⟨hwf, hitems ▸ Set.subset_union_right⟩ : Rebuild.Within R _ ⟨e, [], 0, 0, 0⟩)
    (fun m hm => (hin m (inTail_subset (some (cutFrom rep)) m hm)).2.1)
    fun m hm => (hin m (inTail_subset _ m hm)).2.2
  obtain ⟨rb₂, hrb₂, hwithin₂, hcontents₂, hholes₂⟩ := Rebuild.repairHoles_spec hU hwithin₁
    (fun m hm => (hin m
      (holes_subset (cutFrom rep) (img.records.map fun r => r.entry.dot) m hm)).2.1)
    fun m hm => (hin m (holes_subset _ _ m hm)).2.2
  rw [Rebuild.items_of_chunk_nil hnil₁, hcontents₁, hitems,
    h.map_restored fun m hm => (hin m (inTail_subset _ m hm)).1,
    h.map_restored fun m hm => (hin m (holes_subset _ _ m hm)).1] at hcontents₂
  refine ⟨{ rb₂ with engine := rb₂.engine.advanceLamportTo R (rebuiltInitial rep) }, ?_, ?_, ?_⟩
  · simp only [rebuild, hload, hrb₁, hrb₂]
  · intro hcf hzero
    -- nothing but the image was joined
    have htail : Rebuild.inTail (some (cutFrom rep)) rep.ordered = [] := by
      rw [Rebuild.inTail, List.filterMap_eq_nil_iff]
      intro rec hrec
      obtain ⟨hmem, hseq⟩ := List.mem_filter.mp hrec
      have := List.all_eq_true.mp hcf rec hmem
      simp only [Bool.or_eq_true, Option.isNone_iff_eq_none, decide_eq_true_eq] at this
      exact this.resolve_right fun hlt => by simp [UInt64.not_le.mpr hlt] at hseq
    have hnone : Rebuild.holes (cutFrom rep) (img.records.map fun r => r.entry.dot) rep.ordered = [] := by
      have hz : rb₂.holesRepaired = 0 := hzero
      rw [hz] at hholes₂
      exact List.length_eq_zero_iff.mp (by omega)
    rw [htail, hnone] at hcontents₂
    rw [hroot, hfaithful.root]
    refine merkleRootFromShards_of_contents (hwithin₂.wf.advance _)
      hfaithful.nodup_keys.of_map fun x => ?_
    rw [Engine.contents_advance, hcontents₂]
    simp [itemsOf]
  · intro x hlocal
    show x ∈ (rb₂.engine.advanceLamportTo R (rebuiltInitial rep)).contents R ↔ _
    rw [Engine.contents_advance, hcontents₂]
    have hsub : ∀ ms : List WALMutation, (∀ m ∈ ms, m ∈ rep.ordered.filterMap recordMutation?) →
        x ∈ itemsOf ms → x ∈ itemsOf (survivors es n) := by
      intro ms hms hx
      obtain ⟨m, hm, hx⟩ := hx
      exact ⟨m, hord ▸ hms m hm, hx⟩
    constructor
    · rintro ((himg | htail) | hhole)
      · -- a local record of the image is known to the log
        have hknown : x.entry.dot ∈ rep.mutations.map dotOf := by
          have := List.countP_eq_zero.mp hphantom x himg
          by_contra hnot
          exact this (by simp [hlocal, hnot])
        obtain ⟨m, hm, hdot⟩ := List.mem_map.mp hknown
        rw [hmut] at hm
        exact ⟨m, hm, h.eq_itemOf_of_dot hcap hperm (h.issued_of_survivor hm).1 himg hdot.symm⟩
      · exact hsub _ (inTail_subset _) htail
      · exact hsub _ (holes_subset _ _) hhole
    · rintro ⟨m, hm, rfl⟩
      have hiss := (h.issued_of_survivor hm).1
      rcases tail_image_or_hole (cutFrom rep) (img.records.map fun r => r.entry.dot)
        (hord.symm ▸ hm : m ∈ rep.ordered.filterMap recordMutation?) with htail | himg | hhole
      · exact .inl (.inr ⟨m, htail, rfl⟩)
      · obtain ⟨y, hy, hdot⟩ := List.mem_map.mp himg
        exact .inl (.inl (h.eq_itemOf_of_dot hcap hperm hiss hy hdot ▸ hy))
      · exact .inr ⟨m, hhole, rfl⟩

end Node.Inv

/-! ### The contract -/

theorem Node.Inv.recovers {s : Node} {issued : List WALMutation} {es : List LogEntry}
    {acked : List WALMutation} (h : s.Inv R r issued es acked) {n : ℕ} (hn : s.synced ≤ n)
    (store : Option SnapshotStore) (hstore : ∀ st ∈ store, st = localFS s.objects)
    (seeds : BootSeeds) :
    ∃ out, recoverEngineWithSnapshot R seeds r.nodeID (some (s.wal.file.take n)) store = .ok out ∧
      out.rep.mutations = survivors es n ∧
      ∀ x : SnapshotRecord, x.entry.dotNodeID = r.nodeID →
        (x ∈ out.engine.contents R ↔ x ∈ itemsOf (survivors es n)) := by
  obtain ⟨rep, wal, hreplay, hopen, hmut, hord, hfinal⟩ := h.replay hn
  cases husable : usableImage rep r.nodeID store with
  | error reason =>
    obtain ⟨rb, hrb, hcontents⟩ := h.recover_full hord seeds
    obtain ⟨out, hout, heng, hrep⟩ := recover_exact hreplay hopen husable hrb
    exact ⟨out, hout, hrep ▸ hmut, fun x _ => by rw [heng, hcontents]⟩
  | ok img =>
    cases store with
    | none => cases husable
    | some st =>
      obtain rfl := hstore st rfl
      rw [usableImage] at husable
      split at husable
      · cases husable
      next img' hselect =>
      split at husable
      · cases husable
      next hphantom =>
      cases husable
      obtain ⟨pairs, hcap, hperm, hfaithful, hroot, hprint⟩ := h.image_of_checkpoint hfinal hselect
      have hzero : phantoms rep r.nodeID img = 0 := by omega
      obtain ⟨rb, hrb, hrootOk, hlocal⟩ := h.recover_bounded_local hmut hord hcap hperm hfaithful
        hroot hprint hzero seeds
      have husable : usableImage rep r.nodeID (some (localFS s.objects)) = .ok img := by
        simp [usableImage, hselect, hzero]
      obtain ⟨out, hout, heng, hrep⟩ := recover_bounded hreplay hopen husable hrb hrootOk
      exact ⟨out, hout, hrep ▸ hmut, fun x hx => by rw [heng]; exact hlocal x hx⟩

/-- **Crash recovery.**  For every interleaving of local writes, foreign joins and checkpoints of a
node in which minted mutations are within the limits of recovery and the log stays below `2 ^ 64`
records, and a crash in the state reached that cuts the log at any byte behind its durable part:
recovery with the image store boots, and so does the full replay; every acknowledged mutation is in
the recovered engine with its dot and its entry; every local dot of the recovered engine is in the
replayed log; and the local entries are those of the full replay. -/
theorem crash_recovery (R : Runtime) (r : Replica) (snapshotter : Bool) (actions : List Action)
    (s : Node) (acked : List WALMutation)
    (hrun : run (Node.step R) (Node.fresh r snapshotter) actions = some (s, acked))
    (hguard : Meets (Node.step R) (Node.Guarded R) (Node.fresh r snapshotter) actions)
    (n : ℕ) (hn : s.synced ≤ n) (seeds seeds' : BootSeeds) :
    ∃ bounded full,
      recoverEngineWithSnapshot R seeds r.nodeID (some (s.wal.file.take n))
          (some (localFS s.objects)) = .ok bounded ∧
        recoverEngine R seeds' r.nodeID (some (s.wal.file.take n)) = .ok full ∧
        (∀ m ∈ acked, m.full.dot = dotOf m ∧ m.full ∈ bounded.engine.pointGet R m.entityID) ∧
        (∀ id, ∀ x ∈ bounded.engine.pointGet R id, x.dotNodeID = r.nodeID →
          ∃ m ∈ bounded.rep.mutations, dotOf m = x.dot) ∧
        ∀ id x, x.dotNodeID = r.nodeID →
          (x ∈ bounded.engine.pointGet R id ↔ x ∈ full.engine.pointGet R id) := by
  obtain ⟨issued, es, h⟩ := Node.Inv.run hrun hguard
  obtain ⟨bounded, hb, hbmut, hblocal⟩ := h.recovers hn (some (localFS s.objects)) (by simp) seeds
  obtain ⟨full, hf, -, hflocal⟩ := h.recovers hn none (by simp) seeds'
  refine ⟨bounded, full, hb, hf, fun m hm => ?_, fun id x hx hlocal => ?_, fun id x hlocal => ?_⟩
  · have hsurv := h.acked_survive hn m hm
    have hdot := (h.minted m (h.issued_of_survivor hsurv).1).1.dot
    refine ⟨hdot.1.trans hdot.2.symm, (hblocal (itemOf m) ?_).mpr ⟨m, hsurv, rfl⟩⟩
    exact congrArg CausalDot.nodeID hdot.1
  · obtain ⟨m, hm, heq⟩ := (hblocal ⟨id, x⟩ hlocal).mp hx
    have hdot := (h.minted m (h.issued_of_survivor hm).1).1.dot
    refine ⟨m, hbmut ▸ hm, hdot.2.trans (hdot.1.symm.trans ?_)⟩
    exact congrArg (fun y : SnapshotRecord => y.entry.dot) heq.symm
  · exact (hblocal ⟨id, x⟩ hlocal).trans (hflocal ⟨id, x⟩ hlocal).symm

/-- A write with a checkpoint in between: the dot is minted and published before the capture and
appended after it. -/
def sampleActions : List Action :=
  [.put 0 [sampleItem], .mint 0, .publish 0, .append 0, .flush 0,
    .put 1 [sampleItem, sampleItem], .mint 1, .publish 1, .mint 1, .cut, .capture, .publish 1,
    .append 1, .readClock, .appendCheckpoint, .flushCheckpoint, .writeImage, .flush 1]

theorem crash_recovery_on_sample :
    ∃ s acked bounded, run (Node.step Runtime.sample) (Node.fresh (sampleReplica false) true)
        sampleActions = some (s, acked) ∧ acked.length = 3 ∧ (s.objects 2).isSome = true ∧
      recoverEngineWithSnapshot Runtime.sample ⟨fun _ => 0, 0⟩ (sampleReplica false).nodeID
        (some (s.wal.file.take s.synced)) (some (localFS s.objects)) = .ok bounded ∧
      ∀ m ∈ acked, m.full ∈ bounded.engine.pointGet Runtime.sample m.entityID := by
  have heval : (run (Node.step Runtime.sample) (Node.fresh (sampleReplica false) true)
      sampleActions).map (fun p => (p.2.length, (p.1.objects 2).isSome)) = some (3, true) := by
    decide +kernel
  obtain ⟨⟨s, acked⟩, hrun, hresult⟩ := Option.map_eq_some_iff.mp heval
  obtain ⟨bounded, full, hb, -, hacked, -⟩ := crash_recovery Runtime.sample (sampleReplica false) true
    sampleActions s acked hrun (by decide +kernel) s.synced le_rfl ⟨fun _ => 0, 0⟩ ⟨fun _ => 0, 0⟩
  exact ⟨s, acked, bounded, hrun, congrArg Prod.fst hresult, congrArg Prod.snd hresult, hb,
    fun m hm => (hacked m hm).2⟩

/-- The mutation of a local write after the clock has reached the ceiling of recovery. -/
def ceilingMutation : WALMutation :=
  sampleItem.mutation Runtime.sample ⟨(sampleReplica false).nodeID, maxPlausibleCounter + 1⟩

/-- A foreign entry at the ceiling of the counter, and a local write after it: the write is
acknowledged, and after a crash the node does not boot. -/
theorem acknowledged_write_lost_to_boot :
    ∃ s, run (Node.step Runtime.sample) (Node.fresh (sampleReplica false) true)
        ([.join 0 ⟨sampleNode 2, [⟨[0x62], sampleEntry 2 maxPlausibleCounter 0⟩]⟩, .observe 0,
            .merge 0, .merge 0]
          ++ [.put 1 [sampleItem], .mint 1, .publish 1, .append 1, .flush 1])
        = some (s, [ceilingMutation]) ∧
      ∀ n seeds, s.synced ≤ n →
        recoverEngineWithSnapshot Runtime.sample seeds (sampleReplica false).nodeID
          (some (s.wal.file.take n)) (some (localFS s.objects))
        = .error (.record (.counterCeiling [0x61] (maxPlausibleCounter + 1))) := by
  obtain ⟨e, hjoin, -, hclock, hnode⟩ := Node.run_join (R := Runtime.sample)
    (s := Node.fresh (sampleReplica false) true) (j := 0) rfl
    ⟨sampleNode 2, [⟨[0x62], sampleEntry 2 maxPlausibleCounter 0⟩]⟩
    (by decide +kernel) (by simp)
  have hdot : e.nextDot.1 = ⟨(sampleReplica false).nodeID, maxPlausibleCounter + 1⟩ := by
    rw [Engine.nextDot_fst, hclock, hnode]
    decide +kernel
  have hput := Node.run_putLocal (R := Runtime.sample)
    (s := { Node.fresh (sampleReplica false) true with engine := e }) (i := 1) rfl
    sampleItem (by rw [hdot]; decide +kernel)
  rw [hdot] at hput
  refine ⟨_, run_append hjoin hput, fun n seeds hn => ?_⟩
  have hfits : ∀ e ∈ [LogEntry.mutation ceilingMutation], e.Fits := by decide +kernel
  rw [List.take_of_length_le (le_trans (le_max_right _ _) hn)]
  exact recover_refuses ((WAL.holds_new.write_ok _).replay hfits) rfl rfl (by decide +kernel)

end Sovereign.Durability

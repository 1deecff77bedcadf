import Sovereign.Durability.Lifetimes
import Sovereign.Mesh.Shipping

/-!
# Local inserts through the gossiper

`InsertLocalEvents` and `InsertLocalEventsBatch` of `pkg/mesh/gossip.go`, step by step: the engine
takes the entries, the bridge appends them to the log, and only then the payloads are recorded in the
cache the sweeps ship from.  Any number of calls may be in flight, with sweeps, checkpoints, crashes
and recoveries in between.

An entry of this node that is in the engine but not in the cache cannot be shipped.  Over histories in
which no append fails and no local entry is recovered, there is none as soon as no call is in flight
(`no_orphaned_entry`).  A failed append leaves its entries in the engine, and a restart recovers
entries without their payloads, which are not in the log (`orphaned_entries`).
-/

namespace Sovereign.Mesh

open Lib Sync Wal Durability

/-! ### The steps -/

/-- A call of `InsertLocalEvents` (`single`) or `InsertLocalEventsBatch`.  With a bridge all items are
put before the append, and recorded behind it; without one each item is put and recorded in turn. -/
inductive Insert where
  | idle
  | putting (single : Bool) (done : List (LocalItem × CausalDot)) (todo : List LocalItem)
  | recording (now : List (LocalItem × CausalDot)) (todo : List LocalItem)

/-- What the bridge writes to: the log, and the objects of the image store if one is wired. -/
structure Disk where
  wal : WAL
  objects : Option Objects

/-- A node: its gossiper with the engine, its disk if it is durable, and the insert calls in flight. -/
structure GossipNode where
  gossiper : Gossiper
  disk : Option Disk
  inserts : ℕ → Insert

/-- A new call, a step of a call in flight, or something else that happens to the node. -/
inductive Happening where
  | insert (i : ℕ) (item : LocalItem)
  | insertBatch (i : ℕ) (items : List LocalItem)
  | put (i : ℕ)
  | append (i : ℕ) (faults : Faults)
  | record (i : ℕ)
  | finish (i : ℕ)
  | checkpoint (faults : Faults)
  | sweep (seed : Seed) (peerIDs : List NodeID) (links : NodeID → Link)
  | reboot (cut : ℕ) (seeds : BootSeeds)

/-- The append of a call: `PutLocal` appends one mutation, `PutLocals` a list. -/
def appendCall (R : Runtime) (single : Bool) (done : List (LocalItem × CausalDot)) : AppendCall :=
  match single, done with
  | true, [p] => .mutation (p.1.mutation R p.2)
  | _, _ => .mutations (done.map fun p => p.1.mutation R p.2)

namespace GossipNode

variable (R : Runtime) (T : Toolkit)

def fresh (owner : NodeIdentity) (seeds : BootSeeds) (batchSize : ℤ) (hybridSign : Bool)
    (disk : Option Disk) : GossipNode where
  gossiper := { Gossiper.new owner (newEngineAt seeds owner.nodeID 1) with
    batchSize := batchSize
    hybridSign := hybridSign }
  disk := disk
  inserts := fun _ => .idle

def counting (s : GossipNode) (n : ℤ) (i : ℕ) (w : Insert) : GossipNode :=
  { s with
    gossiper := { s.gossiper with commitInFlight := s.gossiper.commitInFlight + n }
    inserts := Function.update s.inserts i w }

def start (s : GossipNode) (i : ℕ) (single : Bool) (items : List LocalItem) : Option GossipNode :=
  match s.inserts i with
  | .idle => some (s.counting 1 i (if s.disk.isSome then .putting single [] items else .recording [] items))
  | _ => none

/-- `InsertLocal` for one item. -/
def putItem (s : GossipNode) (i : ℕ) (item : LocalItem) (w : CausalDot → Insert) : GossipNode :=
  let (dot, engine) := s.gossiper.engine.insertLocal R item.entityID (item.digested R)
  { s with gossiper := { s.gossiper with engine := engine }, inserts := Function.update s.inserts i (w dot) }

/-- The gossiper of a restarted process, with the settings of the old one. -/
def rebooted (s : GossipNode) (engine : Engine) (disk : Option Disk) : GossipNode where
  gossiper := { Gossiper.new s.gossiper.owner engine with
    batchSize := s.gossiper.batchSize
    hybridSign := s.gossiper.hybridSign }
  disk := disk
  inserts := fun _ => .idle

/-- Boot from what a crash has left of the log. -/
def recover (s : GossipNode) (d : Disk) (cut : ℕ) (seeds : BootSeeds) : Except RecoveryError Recovered :=
  recoverEngineWithSnapshot R seeds s.gossiper.owner.nodeID (some (d.wal.file.take cut))
    (d.objects.map localFS)

/-- One step; it logs the dots whose payloads were recorded. -/
def live (s : GossipNode) : Happening → Option (GossipNode × List CausalDot)
  | .insert i item => (s.start i true [item]).map (·, [])
  | .insertBatch i items => (s.start i false items).map (·, [])
  | .put i =>
    match s.inserts i with
    | .putting single done (item :: todo) =>
      some (s.putItem R i item fun dot => .putting single (done ++ [(item, dot)]) todo, [])
    | .recording [] (item :: todo) =>
      some (s.putItem R i item fun dot => .recording [(item, dot)] todo, [])
    | _ => none
  | .append i faults =>
    match s.disk, s.inserts i with
    | some d, .putting single done [] =>
      match d.wal.append (appendCall R single done) faults with
      | (wal, .error _) => some ({ s with disk := some { d with wal := wal } }.counting (-1) i .idle, [])
      | (wal, .ok ()) =>
        some ({ s with
          disk := some { d with wal := wal }
          inserts := Function.update s.inserts i (.recording done []) }, [])
    | _, _ => none
  | .record i =>
    match s.inserts i with
    | .recording ((item, dot) :: now) todo =>
      some ({ s with
        gossiper := { s.gossiper with cache := s.gossiper.cache.record item.entityID dot item.payload }
        inserts := Function.update s.inserts i (.recording now todo) }, [dot])
    | _ => none
  | .finish i =>
    match s.inserts i with
    | .recording [] [] => some (s.counting (-1) i .idle, [])
    | _ => none
  | .checkpoint faults =>
    match s.disk with
    | none => none
    | some d =>
      let b := (Bridge.appendCheckpoint R ⟨s.gossiper.engine, d.wal, d.objects⟩ faults).1
      some ({ s with disk := some ⟨b.wal, b.snapshotter⟩ }, [])
  | .sweep seed peerIDs links =>
    some ({ s with gossiper := (s.gossiper.antiEntropySweep T R seed peerIDs links).gossiper }, [])
  | .reboot cut seeds =>
    match s.disk with
    | none => some (s.rebooted (newEngineAt seeds s.gossiper.owner.nodeID 1) none, [])
    | some d =>
      match s.recover R d cut seeds with
      | .error _ => none
      | .ok out => some (s.rebooted out.engine (some ⟨out.wal, d.objects⟩), [])

/-- Recovery would bring back no entry of this node: the log that survives has no mutation, and the
image that is used no local entry. -/
def NothingOwn (nodeID : NodeID) (file : Bytes) (store : Option SnapshotStore) : Prop :=
  match replayWAL file with
  | .error _ => True
  | .ok rep =>
    (∀ rec ∈ rep.ordered, recordMutation? rec = none) ∧
      match usableImage rep nodeID store with
      | .error _ => True
      | .ok img => ∀ x ∈ img.records, x.entry.originNodeID ≠ nodeID

instance (nodeID : NodeID) (file : Bytes) (store : Option SnapshotStore) :
    Decidable (NothingOwn nodeID file store) := by
  unfold NothingOwn
  split
  · infer_instance
  · split <;> infer_instance

/-- What a history keeps to: the clock does not wrap, no append of inserted items fails, and no local
entry is recovered. -/
def Kept (s : GossipNode) : Happening → Prop
  | .put _ => s.gossiper.engine.lamportCounter ≠ 0xFFFFFFFFFFFFFFFF
  | .append i faults =>
    match s.disk, s.inserts i with
    | some d, .putting single done [] =>
      done = [] ∨ (d.wal.append (appendCall R single done) faults).2.isOk = true
    | _, _ => True
  | .reboot cut _ =>
    match s.disk with
    | none => True
    | some d => NothingOwn s.gossiper.owner.nodeID (d.wal.file.take cut) (d.objects.map localFS)
  | _ => True

instance (s : GossipNode) (h : Happening) : Decidable (s.Kept R h) := by
  cases h <;> simp only [Kept] <;> try infer_instance
  all_goals split <;> infer_instance

end GossipNode

/-! ### Every entry is accounted for -/

/-- The items a call has put and not recorded. -/
def Insert.unrecorded : Insert → List (LocalItem × CausalDot)
  | .idle => []
  | .putting _ done _ => done
  | .recording now _ => now

def published (R : Runtime) (nodeID : NodeID) (p : LocalItem × CausalDot) : IncomingEntry :=
  ⟨p.1.entityID, { p.1.digested R with
    dotNodeID := p.2.nodeID
    dotCounter := p.2.counter
    originNodeID := nodeID }⟩

namespace GossipNode

variable (R : Runtime) {s' : GossipNode} {i : ℕ} {w : Insert} {item : LocalItem}

/-- Every entry of this node is recorded or belongs to a call in flight, under a dot that nothing else
has. -/
structure Accounted (s : GossipNode) : Prop where
  wf : s.gossiper.engine.WF R
  node : s.gossiper.engine.localNodeID = s.gossiper.owner.nodeID
  clock : ∀ x ∈ s.gossiper.engine.contents R, x.entry.dotCounter ≤ s.gossiper.engine.lamportCounter
  own : ∀ x ∈ s.gossiper.engine.contents R, x.entry.originNodeID = s.gossiper.owner.nodeID →
    s.gossiper.Recorded R x ∨
      ∃ i, ∃ p ∈ (s.inserts i).unrecorded, x = published R s.gossiper.owner.nodeID p
  dots : ∀ i, ∀ p ∈ (s.inserts i).unrecorded, p.2.counter ≤ s.gossiper.engine.lamportCounter ∧
    ∀ x ∈ s.gossiper.engine.contents R, x.entry.dot = p.2 → x = published R s.gossiper.owner.nodeID p

structure Counted (s : GossipNode) : Prop where
  active : ∃ active : Finset ℕ, (∀ i, s.inserts i ≠ .idle ↔ i ∈ active) ∧
    s.gossiper.commitInFlight = active.card

variable {R} {s : GossipNode}

theorem unrecorded_update (inserts : ℕ → Insert) (i j : ℕ) (w : Insert) :
    (Function.update inserts i w j).unrecorded = if j = i then w.unrecorded else (inserts j).unrecorded := by
  by_cases h : j = i
  · subst h
    simp
  · simp [h]

namespace Accounted

theorem congr (h : s.Accounted R) (hengine : s'.gossiper.engine = s.gossiper.engine)
    (hcache : s'.gossiper.cache = s.gossiper.cache) (howner : s'.gossiper.owner = s.gossiper.owner)
    (hitems : ∀ i, (s'.inserts i).unrecorded = (s.inserts i).unrecorded) : s'.Accounted R := by
  refine ⟨hengine ▸ h.wf, by rw [hengine, howner, h.node], hengine ▸ h.clock, fun x hx horigin => ?_,
    fun i p hp => ?_⟩
  · rw [hengine] at hx
    rw [howner] at horigin ⊢
    simp only [Gossiper.Recorded, hcache, hitems]
    exact h.own x hx horigin
  · rw [hitems] at hp
    rw [hengine, howner]
    exact h.dots i p hp

theorem relabel (h : s.Accounted R) (hw : w.unrecorded = (s.inserts i).unrecorded)
    (n : ℤ) (disk : Option Disk) : Accounted R { s with
      gossiper := { s.gossiper with commitInFlight := n }
      disk := disk
      inserts := Function.update s.inserts i w } := by
  refine h.congr rfl rfl rfl fun j => ?_
  rw [unrecorded_update]
  split
  · next hj => rw [hj, hw]
  · rfl

theorem fresh_dot (hclock : s.gossiper.engine.lamportCounter ≠ 0xFFFFFFFFFFFFFFFF) {c : UInt64}
    (hc : c ≤ s.gossiper.engine.lamportCounter) : c ≠ s.gossiper.engine.lamportCounter + 1 := by
  intro heq
  grind

theorem putItem (h : s.Accounted R) (hclock : s.gossiper.engine.lamportCounter ≠ 0xFFFFFFFFFFFFFFFF)
    {w : CausalDot → Insert} (hw : ∀ dot, (w dot).unrecorded = (s.inserts i).unrecorded ++ [(item, dot)]) :
    (s.putItem R i item w).Accounted R := by
  set e := s.gossiper.engine with he
  set dot : CausalDot := e.nextDot.1 with hdot
  set node := s.gossiper.owner.nodeID with hnode
  have hcounter : dot.counter = e.lamportCounter + 1 := by rw [hdot, Engine.nextDot_fst]
  have hold : ∀ x ∈ e.contents R, x.entry.dot ≠ dot := by
    intro x hx heq
    have hx' := congrArg CausalDot.counter heq
    rw [hcounter] at hx'
    exact fresh_dot hclock (h.clock x hx) hx'
  have hup : e.lamportCounter ≤ e.lamportCounter + 1 := by grind
  -- what the engine holds afterwards
  obtain ⟨hwf, hget⟩ := Engine.insertLocal_spec h.wf item.entityID (item.digested R)
    fun x hx => hold ⟨item.entityID, x⟩ hx
  have hnew : published R node (item, dot) = ⟨item.entityID, e.stamp dot (item.digested R)⟩ := by
    rw [published, Engine.stamp, h.node]
  have hcontents : ∀ x, x ∈ (e.insertLocal R item.entityID (item.digested R)).2.contents R →
      x ∈ e.contents R ∨ x = published R node (item, dot) := by
    rintro ⟨k, x⟩ hx
    rw [Engine.mem_contents, hget] at hx
    by_cases hk : k = item.entityID
    · subst hk
      rcases (by simpa using hx) with rfl | hx
      · exact .inr hnew.symm
      · exact .inl hx
    · exact .inl (by simpa [hk, Engine.mem_contents] using hx)
  have hitems : ∀ j, ((s.putItem R i item w).inserts j).unrecorded
      = if j = i then (s.inserts i).unrecorded ++ [(item, dot)] else (s.inserts j).unrecorded := by
    intro j
    refine (unrecorded_update s.inserts i j _).trans ?_
    rw [hw]
    rfl
  have hmem : ∀ {j p}, p ∈ (s.inserts j).unrecorded → p ∈ ((s.putItem R i item w).inserts j).unrecorded := by
    intro j p hp
    rw [hitems]
    split
    · next hj => exact List.mem_append_left _ (hj ▸ hp)
    · exact hp
  refine ⟨hwf, h.node, fun x hx => ?_, fun x hx horigin => ?_, fun j p hp => ?_⟩
  · show x.entry.dotCounter ≤ e.lamportCounter + 1
    rcases hcontents x hx with hx | rfl
    · exact UInt64.le_trans (h.clock x hx) hup
    · exact UInt64.le_of_eq hcounter
  · rcases hcontents x hx with hx | rfl
    · rcases h.own x hx horigin with hrec | ⟨j, p, hp, hx⟩
      · exact .inl hrec
      · exact .inr ⟨j, p, hmem hp, hx⟩
    · refine .inr ⟨i, (item, dot), ?_, rfl⟩
      rw [hitems, if_pos rfl]
      simp
  · -- an old item keeps its dot to itself, the new one has a dot of its own
    have hcase : p ∈ (s.inserts j).unrecorded ∨ p = (item, dot) := by
      rw [hitems] at hp
      split at hp
      · next hj =>
        subst hj
        simpa using hp
      · exact .inl hp
    rcases hcase with hp | rfl
    · obtain ⟨hle, honly⟩ := h.dots j p hp
      refine ⟨UInt64.le_trans hle hup, fun x hx hxdot => ?_⟩
      rcases hcontents x hx with hx | rfl
      · exact honly x hx hxdot
      · have hbad : dot.counter = p.2.counter := congrArg CausalDot.counter hxdot
        exact absurd (hbad.symm.trans hcounter) (fresh_dot hclock hle)
    · refine ⟨UInt64.le_of_eq hcounter, fun x hx hxdot => ?_⟩
      rcases hcontents x hx with hx | rfl
      · exact absurd hxdot (hold x hx)
      · rfl

theorem record (h : s.Accounted R) {dot : CausalDot}
    {now : List (LocalItem × CausalDot)} {todo : List LocalItem}
    (hi : s.inserts i = .recording ((item, dot) :: now) todo) : Accounted R { s with
      gossiper := { s.gossiper with cache := s.gossiper.cache.record item.entityID dot item.payload }
      inserts := Function.update s.inserts i (.recording now todo) } := by
  have hhead : (item, dot) ∈ (s.inserts i).unrecorded := by
    rw [hi]
    exact List.mem_cons_self
  refine ⟨h.wf, h.node, h.clock, fun x hx horigin => ?_, fun j p hp => ?_⟩
  · by_cases hkey : x.entityID = item.entityID ∧ x.entry.dot = dot
    · -- the entry under this key is the one of the item
      have hx' := (h.dots i _ hhead).2 x hx hkey.2
      refine .inl ⟨item.payload, ?_, ?_⟩
      · simp [PayloadCache.lookup, PayloadCache.record, hkey]
      · rw [hx']
        rfl
    · rcases h.own x hx horigin with ⟨payload, hlookup, hsha⟩ | ⟨j, p, hp, hxp⟩
      · refine .inl ⟨payload, ?_, hsha⟩
        simpa [PayloadCache.lookup, PayloadCache.record, hkey] using hlookup
      · refine .inr ⟨j, p, ?_, hxp⟩
        rw [unrecorded_update]
        split
        · next hj =>
          subst hj
          rw [hi] at hp
          rcases List.mem_cons.mp hp with rfl | hp
          · exact absurd ⟨by rw [hxp]; rfl, by rw [hxp]; rfl⟩ hkey
          · exact hp
        · exact hp
  · refine h.dots j p ?_
    rw [unrecorded_update] at hp
    split at hp
    · next hj =>
      subst hj
      rw [hi]
      exact List.mem_cons_of_mem _ hp
    · exact hp

/-- A process that starts with an empty cache has no entry of its own. -/
theorem rebooted {engine : Engine} (hwf : engine.WF R)
    (hnode : engine.localNodeID = s.gossiper.owner.nodeID)
    (hclock : ∀ x ∈ engine.contents R, x.entry.dotCounter ≤ engine.lamportCounter)
    (hown : ∀ x ∈ engine.contents R, x.entry.originNodeID ≠ s.gossiper.owner.nodeID) (disk : Option Disk) :
    (s.rebooted engine disk).Accounted R :=
  ⟨hwf, hnode, hclock, fun x hx horigin => absurd horigin (hown x hx), fun _ _ hp => nomatch hp⟩

theorem fresh (owner : NodeIdentity) (seeds : BootSeeds) (batchSize : ℤ) (hybridSign : Bool)
    (disk : Option Disk) : (GossipNode.fresh owner seeds batchSize hybridSign disk).Accounted R := by
  have hempty : (newEngineAt seeds owner.nodeID 1).contents R = ∅ := Engine.contents_newEngine (by decide) _ _ _ _
  exact ⟨Engine.wf_newEngine (by decide) _ _ _ _, rfl, fun x hx => (hempty ▸ hx : x ∈ (∅ : Set _)).elim,
    fun x hx => (hempty ▸ hx : x ∈ (∅ : Set _)).elim, fun _ _ hp => nomatch hp⟩

/-- A boot from a log and an image without own entries. -/
theorem reboot {d : Disk} {cut : ℕ} {seeds : BootSeeds}
    (hnone : NothingOwn s.gossiper.owner.nodeID (d.wal.file.take cut) (d.objects.map localFS))
    {out : Recovered} (hrec : s.recover R d cut seeds = .ok out) (disk : Option Disk) :
    (s.rebooted out.engine disk).Accounted R := by
  obtain ⟨hreplay, -, rb, hrebuild, hengine⟩ := recover_ok hrec
  rw [NothingOwn, hreplay] at hnone
  obtain ⟨hlog, himage⟩ := hnone
  have hcovers := (rebuild_covers hrebuild).1
  have hown := rebuild_contents_subset hrebuild (S := {x | x.entry.originNodeID ≠ s.gossiper.owner.nodeID})
    (fun img himg => ?_) fun rec hmem m hm => by
      rw [hlog rec hmem] at hm
      cases hm
  · rw [← hengine] at hcovers hown
    exact rebooted hcovers.wf (hengine ▸ rebuild_localNodeID hrebuild) hcovers.contents hown disk
  · cases husable : usableImage out.rep s.gossiper.owner.nodeID (d.objects.map localFS) with
    | error err => simp [husable, Except.toOption] at himg
    | ok img' =>
      simp only [husable, Except.toOption, Option.mem_def, Option.some.injEq] at himg
      simp only [husable] at himage
      exact himg ▸ himage

end Accounted

/-! ### Calls in flight -/

namespace Counted

theorem fresh (owner : NodeIdentity) (seeds : BootSeeds) (batchSize : ℤ) (hybridSign : Bool)
    (disk : Option Disk) : (GossipNode.fresh owner seeds batchSize hybridSign disk).Counted :=
  ⟨∅, by simp [GossipNode.fresh], rfl⟩

theorem stay (h : s.Counted) (hi : s.inserts i ≠ .idle) (hw : w ≠ .idle)
    (hcount : s'.gossiper.commitInFlight = s.gossiper.commitInFlight)
    (hinserts : s'.inserts = Function.update s.inserts i w) : s'.Counted := by
  obtain ⟨active, hactive, hcard⟩ := h.active
  refine ⟨active, fun j => ?_, hcount.trans hcard⟩
  rw [hinserts, ← hactive]
  by_cases hj : j = i
  · subst hj
    simp [hi, hw]
  · simp [hj]

theorem begins (h : s.Counted) (hi : s.inserts i = .idle) (hw : w ≠ .idle) : (s.counting 1 i w).Counted := by
  obtain ⟨active, hactive, hcard⟩ := h.active
  have hout : i ∉ active := fun hmem => (hactive i).mpr hmem hi
  refine ⟨insert i active, fun j => ?_, ?_⟩
  · rw [counting, Finset.mem_insert, ← hactive]
    by_cases hj : j = i
    · subst hj
      simp [hw]
    · simp [hj]
  · rw [Finset.card_insert_of_notMem hout]
    show s.gossiper.commitInFlight + 1 = _
    rw [hcard]
    push_cast
    rfl

theorem ends (h : s.Counted) (hi : s.inserts i ≠ .idle) (disk : Option Disk) :
    (({ s with disk := disk } : GossipNode).counting (-1) i .idle).Counted := by
  obtain ⟨active, hactive, hcard⟩ := h.active
  have hin : i ∈ active := (hactive i).mp hi
  refine ⟨active.erase i, fun j => ?_, ?_⟩
  · rw [counting, Finset.mem_erase, ← hactive]
    by_cases hj : j = i
    · subst hj
      simp
    · simp [hj]
  · have hpos := Finset.card_pos.mpr ⟨i, hin⟩
    rw [Finset.card_erase_of_mem hin]
    show s.gossiper.commitInFlight + -1 = _
    rw [hcard]
    omega

theorem idle (h : s.Counted) (hzero : s.gossiper.commitInFlight = 0) (i : ℕ) : s.inserts i = .idle := by
  obtain ⟨active, hactive, hcard⟩ := h.active
  have hempty : active = ∅ := Finset.card_eq_zero.mp (by omega)
  by_contra hne
  have hmem := (hactive i).mp hne
  rw [hempty] at hmem
  cases hmem

end Counted

/-- **One step.** -/
theorem live_keeps {T : Toolkit} (h : s.Accounted R) (hc : s.Counted) {a : Happening} (hkept : s.Kept R a)
    {log : List CausalDot} (hstep : s.live R T a = some (s', log)) : s'.Accounted R ∧ s'.Counted := by
  have hstart : ∀ {i single items}, s.start i single items = some s' → s'.Accounted R ∧ s'.Counted := by
    intro i single items hs
    rw [GossipNode.start] at hs
    split at hs
    · next hidle =>
      cases hs
      refine ⟨h.relabel ?_ _ _, hc.begins hidle (by split <;> simp)⟩
      rw [hidle]
      split <;> rfl
    · cases hs
  have hboot : ∀ engine disk, (s.rebooted engine disk).Counted := fun engine disk =>
    ⟨∅, by simp [GossipNode.rebooted], rfl⟩
  cases a with
  | insert i item =>
    obtain ⟨s₁, hs, heq⟩ := Option.map_eq_some_iff.mp hstep
    cases heq
    exact hstart hs
  | insertBatch i items =>
    obtain ⟨s₁, hs, heq⟩ := Option.map_eq_some_iff.mp hstep
    cases heq
    exact hstart hs
  | put i =>
    simp only [GossipNode.live] at hstep
    split at hstep
    · next single done item todo hi =>
      cases hstep
      exact ⟨h.putItem hkept fun dot => by rw [hi]; rfl,
        hc.stay (by rw [hi]; simp) (w := .putting _ _ _) (by simp) rfl rfl⟩
    · next item todo hi =>
      cases hstep
      exact ⟨h.putItem hkept fun dot => by rw [hi]; rfl,
        hc.stay (by rw [hi]; simp) (w := .recording _ _) (by simp) rfl rfl⟩
    · cases hstep
  | append i faults =>
    simp only [GossipNode.live] at hstep
    split at hstep
    · next d single done hd hi =>
      simp only [Kept, hd, hi] at hkept
      split at hstep
      · next wal err happend =>
        -- the append has failed, so the call had put nothing
        cases hstep
        rw [happend] at hkept
        have hnil : done = [] := hkept.resolve_right (by simp [Except.isOk, Except.toBool])
        exact ⟨h.relabel (by rw [hi, hnil]; rfl) _ _, hc.ends (by rw [hi]; simp) _⟩
      · cases hstep
        exact ⟨h.relabel (by rw [hi]; rfl) _ _,
          hc.stay (by rw [hi]; simp) (w := .recording _ _) (by simp) rfl rfl⟩
    · cases hstep
  | record i =>
    simp only [GossipNode.live] at hstep
    split at hstep
    · next item dot now todo hi =>
      cases hstep
      exact ⟨h.record hi, hc.stay (by rw [hi]; simp) (w := .recording _ _) (by simp) rfl rfl⟩
    · cases hstep
  | finish i =>
    simp only [GossipNode.live] at hstep
    split at hstep
    · next hi =>
      cases hstep
      exact ⟨h.relabel (by rw [hi]; rfl) _ _, hc.ends (by rw [hi]; simp) s.disk⟩
    · cases hstep
  | checkpoint faults =>
    simp only [GossipNode.live] at hstep
    split at hstep
    · cases hstep
    · cases hstep
      exact ⟨h.congr rfl rfl rfl fun i => rfl, ⟨hc.active⟩⟩
  | sweep seed peerIDs links =>
    cases hstep
    have hsame := antiEntropySweep_store (T := T) (R := R) s.gossiper seed peerIDs links
    obtain ⟨active, hactive, hcard⟩ := hc.active
    exact ⟨h.congr hsame.engine hsame.cache hsame.owner fun i => rfl,
      active, hactive, hsame.commitInFlight.trans hcard⟩
  | reboot cut seeds =>
    simp only [GossipNode.live] at hstep
    split at hstep
    · cases hstep
      have hempty : (newEngineAt seeds s.gossiper.owner.nodeID 1).contents R = ∅ :=
        Engine.contents_newEngine (by decide) _ _ _ _
      exact ⟨.rebooted (Engine.wf_newEngine (by decide) _ _ _ _) rfl
        (fun x hx => (hempty ▸ hx : x ∈ (∅ : Set _)).elim)
        (fun x hx => (hempty ▸ hx : x ∈ (∅ : Set _)).elim) none, hboot _ _⟩
    · next d hd =>
      rw [Kept, hd] at hkept
      split at hstep
      · cases hstep
      · next out hrec =>
        cases hstep
        exact ⟨.reboot hkept hrec _, hboot _ _⟩

end GossipNode

/-! ### Histories -/

/-- **No orphaned entry.**  In every history of inserts, sweeps, checkpoints, crashes and recoveries in
which the clock does not wrap, no append fails behind an insert and no local entry is recovered:
whenever no insert is in flight, every entry of this node has its payload recorded under its entity
and dot, and no sweep misses one. -/
theorem no_orphaned_entry (R : Runtime) (T : Toolkit) (owner : NodeIdentity) (seeds : BootSeeds)
    (batchSize : ℤ) (hybridSign : Bool) (disk : Option Disk) (events : List Happening) (s : GossipNode)
    (log : List CausalDot)
    (hrun : run (GossipNode.live R T) (GossipNode.fresh owner seeds batchSize hybridSign disk) events
      = some (s, log))
    (hkept : Meets (GossipNode.live R T) (GossipNode.Kept R)
      (GossipNode.fresh owner seeds batchSize hybridSign disk) events)
    (hquiet : s.gossiper.commitInFlight = 0) :
    (∀ x ∈ s.gossiper.engine.contents R, x.entry.originNodeID = s.gossiper.owner.nodeID →
      s.gossiper.Recorded R x) ∧
    ∀ seed peerIDs links,
      (s.gossiper.antiEntropySweep T R seed peerIDs links).payloadMisses = 0 ∧
        (s.gossiper.antiEntropySweep T R seed peerIDs links).payloadPending = 0 := by
  obtain ⟨haccounted, hcounted⟩ := run_state_invariant
    (Q := fun s : GossipNode => s.Accounted R ∧ s.Counted)
    (fun s a s' out h hG hstep => GossipNode.live_keeps h.1 h.2 hG hstep)
    ⟨GossipNode.Accounted.fresh owner seeds batchSize hybridSign disk,
      GossipNode.Counted.fresh owner seeds batchSize hybridSign disk⟩ hkept hrun
  have hrecorded : ∀ x ∈ s.gossiper.engine.contents R,
      x.entry.originNodeID = s.gossiper.owner.nodeID → s.gossiper.Recorded R x := by
    intro x hx horigin
    rcases haccounted.own x hx horigin with hrec | ⟨i, p, hp, -⟩
    · exact hrec
    · rw [hcounted.idle hquiet i] at hp
      cases hp
  refine ⟨hrecorded, fun seed peerIDs links => ?_⟩
  exact antiEntropySweep_no_misses (fun x hx => hrecorded x ((Engine.mem_items haccounted.wf).mp hx)) _ _ _

/-- A durable node with an empty log. -/
def sampleNodeWithLog : GossipNode :=
  .fresh ⟨sampleNode 9, [], .copyFrom 32 [9], none, none⟩ ⟨fun _ => 0, 0⟩ 16 false
    (some ⟨⟨fileHeader, 0⟩, none⟩)

/-- A boot from the empty log, then a single insert with the calls of a batch in between, and a sweep. -/
def sampleHappenings : List Happening :=
  [.reboot 4096 ⟨fun _ => 0, 0⟩, .insert 0 sampleItem, .put 0, .insertBatch 1 [sampleItem, sampleItem],
    .put 1, .append 0 .none, .record 0, .put 1, .finish 0, .append 1 .none, .record 1, .record 1,
    .finish 1, .sweep 0 [sampleNode 4] fun _ => .lossless]

set_option maxRecDepth 100000 in
theorem no_orphaned_entry_on_sample :
    ∃ s log, run (GossipNode.live .sample .sample) sampleNodeWithLog sampleHappenings = some (s, log) ∧
      log.map CausalDot.counter = [1, 2, 3] ∧
      (∀ x ∈ s.gossiper.engine.contents .sample, x.entry.originNodeID = s.gossiper.owner.nodeID →
        s.gossiper.Recorded .sample x) ∧
      ∀ seed peerIDs links,
        (s.gossiper.antiEntropySweep .sample .sample seed peerIDs links).payloadMisses = 0 ∧
          (s.gossiper.antiEntropySweep .sample .sample seed peerIDs links).payloadPending = 0 := by
  have heval : (run (GossipNode.live .sample .sample) sampleNodeWithLog sampleHappenings).map
      (fun p => (p.2.map CausalDot.counter, p.1.gossiper.commitInFlight)) = some ([1, 2, 3], 0) := by
    decide +kernel
  obtain ⟨⟨s, log⟩, hrun, hresult⟩ := Option.map_eq_some_iff.mp heval
  obtain ⟨hlog, hquiet⟩ := Prod.mk.inj hresult
  obtain ⟨hown, hsweep⟩ := no_orphaned_entry .sample .sample _ _ _ _ _ sampleHappenings s log hrun
    (by decide +kernel) hquiet
  exact ⟨s, log, hrun, hlog, hown, hsweep⟩

/-- A write whose append fails. -/
def failedAppend : List Happening :=
  [.insert 0 sampleItem, .put 0, .append 0 ⟨fun _ => .fails 0, true⟩]

/-- A write that is acknowledged, and recovered after a crash. -/
def recoveredWrite : List Happening :=
  [.insert 0 sampleItem, .put 0, .append 0 .none, .record 0, .finish 0, .reboot 4096 ⟨fun _ => 0, 0⟩]

/-- At the end of a history no insert is in flight, the engine holds an entry of this node whose payload
is not recorded, and a sweep misses it. -/
def Orphans (events : List Happening) : Prop :=
  ∃ s log x, run (GossipNode.live .sample .sample) sampleNodeWithLog events = some (s, log) ∧
    s.gossiper.commitInFlight = 0 ∧ x ∈ s.gossiper.engine.contents .sample ∧
    x.entry.originNodeID = s.gossiper.owner.nodeID ∧
    s.gossiper.cache.lookup x.entityID x.entry.dot = none ∧
    (s.gossiper.antiEntropySweep .sample .sample 0 [sampleNode 4] fun _ => .lossless).payloadMisses = 1

/-- The entry of the sample item under the first dot. -/
def orphanEntry (counter : UInt64) : IncomingEntry :=
  published .sample (sampleNode 9) (sampleItem, ⟨sampleNode 9, counter⟩)

/-- The last state of a history, as far as it can be computed. -/
def isOrphaned (counter : UInt64) (s : GossipNode) : Bool :=
  s.gossiper.commitInFlight = 0 && decide (orphanEntry counter ∈ s.gossiper.engine.contents .sample) &&
    s.gossiper.owner.nodeID = sampleNode 9 &&
    (s.gossiper.cache.lookup (orphanEntry counter).entityID (orphanEntry counter).entry.dot).isNone &&
    (s.gossiper.antiEntropySweep .sample .sample 0 [sampleNode 4] fun _ => .lossless).payloadMisses = 1

theorem orphans_of_run {events : List Happening} (counter : UInt64)
    (heval : (run (GossipNode.live .sample .sample) sampleNodeWithLog events).map
      (fun p => isOrphaned counter p.1) = some true) : Orphans events := by
  obtain ⟨⟨s, log⟩, hrun, hresult⟩ := Option.map_eq_some_iff.mp heval
  simp only [isOrphaned, Bool.and_eq_true, decide_eq_true_eq, Option.isNone_iff_eq_none] at hresult
  obtain ⟨⟨⟨⟨hquiet, hmem⟩, howner⟩, hnone⟩, hmiss⟩ := hresult
  exact ⟨s, log, orphanEntry counter, hrun, hquiet, hmem, howner.symm, hnone, hmiss⟩

set_option maxRecDepth 100000 in
/-- A failed append and a restart both leave an entry that no sweep can ship. -/
theorem orphaned_entries : Orphans failedAppend ∧ Orphans recoveredWrite :=
  ⟨orphans_of_run 2 (by decide +kernel), orphans_of_run 2 (by decide +kernel)⟩

end Sovereign.Mesh

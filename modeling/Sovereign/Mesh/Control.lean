import Sovereign.Mesh.Inserts
import Sovereign.Sync.Growth
import Sovereign.Database.Query

/-!
# Insert, then query

The write side of `pkg/mesh/control.go`: `handleInsert` and `handleBatchInsert` give an entry its times
and hand it to the gossiper.  The read side: `engineHAMTAdapter.LiveRead` of `cmd/sovereign-node`, through
which `AsOf` sees the entries of the engine.

An accepted request is in the engine, and the engine only grows (`Sync.Growth`), so a later query at the
start of its interval finds the row as soon as the interval is not empty and the row lies after time zero.
The first is the matter of `validEnd`: an end that is not claimed, or that lies beyond the open end or
overflows, is the open end at `9 * 10 ^ 18` — which comes before a start beyond it
(`inserted_row_is_found_iff`).

The decoding of requests, the methods of HTTP and the bodies of answers are left out; an answer is its
status.
-/

namespace Sovereign.Mesh

open Lib Sync Wal Durability Database

/-! ### The times of a request -/

structure InsertRequest where
  key : EntityID
  val : Bytes
  validFromNs : Option Int64
  validForNs : Option Int64
deriving DecidableEq

def openEndedValidEndNs : Int64 := 9000000000000000000

namespace InsertRequest

/-- The start of the valid time, by default the time of the write. -/
def validFrom (req : InsertRequest) (now : Int64) : Int64 := req.validFromNs.getD now

/-- The end of the valid time; the sum wraps. -/
def validEnd (req : InsertRequest) (now : Int64) : Int64 :=
  match req.validForNs with
  | none => openEndedValidEndNs
  | some validForNs =>
    if 0 < validForNs then
      let claimed := req.validFrom now + validForNs
      if openEndedValidEndNs < claimed ∨ claimed < req.validFrom now then openEndedValidEndNs else claimed
    else openEndedValidEndNs

def item (req : InsertRequest) (now : Int64) : LocalItem where
  entityID := req.key
  payload := req.val
  entry :=
    { payloadDigest := .zero 32
      originNodeID := .zero 16
      dotNodeID := .zero 16
      dotCounter := 0
      systemTime := now
      validTimeStart := req.validFrom now
      validTimeEnd := req.validEnd now
      assertionTime := now
      decisionTime := 0
      h3Index := 0 }

/-- The interval of a row is not empty exactly if it starts before the open end. -/
theorem validFrom_lt_validEnd_iff (req : InsertRequest) (now : Int64) :
    req.validFrom now < req.validEnd now ↔ req.validFrom now < openEndedValidEndNs := by
  unfold validEnd
  split
  · exact Iff.rfl
  · next validForNs _ =>
    split
    · next hpos =>
      dsimp only
      split
      · exact Iff.rfl
      · next hclaim =>
        -- the sum did not wrap, so the claimed end is behind the start and before the open end
        rw [not_or, Int64.not_lt, Int64.not_lt] at hclaim
        have hne : req.validFrom now ≠ req.validFrom now + validForNs := by
          intro heq
          have hzero : validForNs = 0 :=
            (Int64.add_right_inj _).mp (heq.symm.trans (Int64.add_zero _).symm)
          rw [hzero] at hpos
          exact Int64.lt_irrefl hpos
        have hlt := Int64.lt_of_le_of_ne hclaim.2 hne
        exact ⟨fun _ => Int64.lt_of_lt_of_le hlt hclaim.1, fun _ => hlt⟩
    · exact Iff.rfl

end InsertRequest

/-! ### The handlers -/

inductive InsertStatus where
  | badRequest
  | unavailable
  | ok (dot : CausalDot)
deriving DecidableEq

namespace GossipNode

variable (R : Runtime) {req : InsertRequest}

def recordItem (s : GossipNode) (item : LocalItem) (dot : CausalDot) : GossipNode :=
  { s with gossiper := { s.gossiper with cache := s.gossiper.cache.record item.entityID dot item.payload } }

/-- The engine and the log behind a call of the bridge. -/
def afterBridge (s : GossipNode) (b : Bridge) : GossipNode :=
  { s with
    gossiper := { s.gossiper with engine := b.engine }
    disk := some ⟨b.wal, b.snapshotter⟩ }

/-- `InsertLocalEvents`, as one call; a failed append is answered by the zero dot. -/
def insertLocalEvents (s : GossipNode) (item : LocalItem) (f : Faults) : GossipNode × CausalDot :=
  match s.disk with
  | some d =>
    match Bridge.putLocal R ⟨s.gossiper.engine, d.wal, d.objects⟩ item f with
    | (b, _, .error _) => (s.afterBridge b, ⟨.zero 16, 0⟩)
    | (b, dot, .ok ()) => ((s.afterBridge b).recordItem item dot, dot)
  | none =>
    let (dot, engine) := s.gossiper.engine.insertLocal R item.entityID (item.digested R)
    ({ s with gossiper := { s.gossiper with engine := engine } }.recordItem item dot, dot)

/-- `InsertLocalEventsBatch`, as one call; `none` is an error. -/
def insertLocalEventsBatch (s : GossipNode) (items : List LocalItem) (f : Faults) :
    GossipNode × Option (List CausalDot) :=
  match s.disk with
  | some d =>
    match Bridge.putLocals R ⟨s.gossiper.engine, d.wal, d.objects⟩ items f with
    | (b, _, .error _) => (s.afterBridge b, none)
    | (b, dots, .ok ()) =>
      ((items.zip dots).foldl (fun s p => s.recordItem p.1 p.2) (s.afterBridge b), some dots)
  | none =>
    let (engine, dots, _) := Bridge.insertLocals R s.gossiper.engine items
    ((items.zip dots).foldl (fun s p => s.recordItem p.1 p.2)
      { s with gossiper := { s.gossiper with engine := engine } }, some dots)

def handleInsert (s : GossipNode) (now : Int64) (req : InsertRequest) (f : Faults) : GossipNode × InsertStatus :=
  if req.key.isEmpty then (s, .badRequest)
  else
    let (s', dot) := s.insertLocalEvents R (req.item now) f
    if dot = ⟨.zero 16, 0⟩ ∧ s.disk.isSome then (s', .unavailable) else (s', .ok dot)

/-- The statuses of a batch: the dots belong to the requests with a key, in order. -/
def batchStatuses : List InsertRequest → List CausalDot → List InsertStatus
  | [], _ => []
  | req :: reqs, dots =>
    if req.key.isEmpty then .badRequest :: batchStatuses reqs dots
    else
      match dots with
      | [] => .unavailable :: batchStatuses reqs []
      | dot :: dots => .ok dot :: batchStatuses reqs dots

/-- `handleBatchInsert`: requests without a key are left out, the others share the outcome. -/
def handleBatchInsert (s : GossipNode) (now : Int64) (reqs : List InsertRequest) (f : Faults) :
    GossipNode × List InsertStatus :=
  let batch := (reqs.filter fun req => !req.key.isEmpty).map (·.item now)
  if batch.isEmpty then (s, batchStatuses reqs [])
  else
    match s.insertLocalEventsBatch R batch f with
    | (s', none) => (s', batchStatuses reqs [])
    | (s', some dots) => (s', batchStatuses reqs dots)

/-- A request is accepted at time `now`, alone or in a batch, and the node goes from `s` to `s'`. -/
inductive Accepted (s : GossipNode) (now : Int64) (req : InsertRequest) (s' : GossipNode) : Prop where
  | single (f : Faults) (dot : CausalDot) (h : s.handleInsert R now req f = (s', .ok dot))
  | batch (reqs : List InsertRequest) (f : Faults) (statuses : List InsertStatus) (i : ℕ) (dot : CausalDot)
      (h : s.handleBatchInsert R now reqs f = (s', statuses)) (hreq : reqs[i]? = some req)
      (hok : statuses[i]? = some (.ok dot))

variable {R}

def itemChange (R : Runtime) (item : LocalItem) : Engine.Change := .insertLocal item.entityID (item.digested R)

theorem engine_recordItems (s : GossipNode) (ps : List (LocalItem × CausalDot)) :
    (ps.foldl (fun s p => s.recordItem p.1 p.2) s).gossiper.engine = s.gossiper.engine := by
  induction ps generalizing s with
  | nil => rfl
  | cons p ps ih => exact ih _

theorem engine_insertLocals (e : Engine) (items : List LocalItem) :
    (Bridge.insertLocals R e items).1 = (items.map (itemChange R)).foldl (Engine.change R) e := by
  induction items generalizing e with
  | nil => rfl
  | cons item items ih => exact ih _

theorem engine_insertLocalEvents (s : GossipNode) (item : LocalItem) (f : Faults) :
    (s.insertLocalEvents R item f).1.gossiper.engine = s.gossiper.engine.change R (itemChange R item) := by
  unfold insertLocalEvents
  split
  · split
    · next hput => exact congrArg (fun out => out.1.engine) hput.symm
    · next hput => exact congrArg (fun out => out.1.engine) hput.symm
  · rfl

theorem engine_insertLocalEventsBatch (s : GossipNode) (items : List LocalItem) (f : Faults) :
    (s.insertLocalEventsBatch R items f).1.gossiper.engine =
      (items.map (itemChange R)).foldl (Engine.change R) s.gossiper.engine := by
  rw [← engine_insertLocals]
  unfold insertLocalEventsBatch
  split
  · split
    · next hput => exact congrArg (fun out => out.1.engine) hput.symm
    · next hput =>
      rw [engine_recordItems]
      exact congrArg (fun out => out.1.engine) hput.symm
  · rw [engine_recordItems]

theorem key_ne_nil_of_batchStatuses {reqs : List InsertRequest} {dots : List CausalDot} {i : ℕ}
    {dot : CausalDot} (hreq : reqs[i]? = some req)
    (hok : (batchStatuses reqs dots)[i]? = some (.ok dot)) : req.key ≠ [] ∧ dots ≠ [] := by
  induction reqs generalizing dots i with
  | nil => cases hreq
  | cons r reqs ih =>
    unfold batchStatuses at hok
    cases i with
    | zero =>
      cases hreq
      split at hok
      · simp at hok
      · next hkey =>
        cases dots with
        | nil => simp at hok
        | cons d dots => exact ⟨by simpa using hkey, by simp⟩
    | succ i =>
      split at hok
      · exact ih hreq hok
      · cases dots with
        | nil => exact absurd rfl (ih hreq hok).2
        | cons d dots => exact ⟨(ih hreq hok).1, by simp⟩

/-- Behind an accepted request the engine has gone through changes, and one of them puts its item. -/
theorem Accepted.changes {s s' : GossipNode} {now : Int64} (h : Accepted R s now req s') :
    ∃ cs : List Engine.Change, s'.gossiper.engine = cs.foldl (Engine.change R) s.gossiper.engine ∧
      itemChange R (req.item now) ∈ cs := by
  cases h with
  | single f dot h =>
    unfold handleInsert at h
    split at h
    · cases h
    · refine ⟨[itemChange R (req.item now)], ?_, List.mem_singleton_self _⟩
      have hengine := engine_insertLocalEvents (R := R) s (req.item now) f
      dsimp only at h
      split at h
      · cases h
      · cases h
        exact hengine
  | batch reqs f statuses i dot h hreq hok =>
    set batch := (reqs.filter fun req => !req.key.isEmpty).map (·.item now) with hbatch
    have houtcome : ∃ dots, statuses = batchStatuses reqs dots ∧
        (dots ≠ [] → s'.gossiper.engine = (batch.map (itemChange R)).foldl (Engine.change R) s.gossiper.engine) := by
      unfold handleBatchInsert at h
      dsimp only at h
      rw [← hbatch] at h
      split at h
      · cases h
        exact ⟨[], rfl, fun hne => absurd rfl hne⟩
      · rw [← engine_insertLocalEventsBatch s batch f]
        split at h
        · next hcall =>
          cases h
          exact ⟨[], rfl, fun hne => absurd rfl hne⟩
        · next dots hcall =>
          cases h
          exact ⟨dots, rfl, fun _ => by rw [hcall]⟩
    obtain ⟨dots, rfl, hengine⟩ := houtcome
    obtain ⟨hkey, hdots⟩ := key_ne_nil_of_batchStatuses hreq hok
    have hitem : req.item now ∈ batch :=
      List.mem_map_of_mem (List.mem_filter.mpr ⟨List.mem_of_getElem? hreq, by simpa using hkey⟩)
    exact ⟨batch.map (itemChange R), hengine hdots, List.mem_map_of_mem hitem⟩

end GossipNode

/-! ### The live entries -/

def liveEvent (entityID : EntityID) (x : CRDTEntry) : TriTemporalEvent where
  entityID := entityID
  systemTime := x.systemTime
  validTimeStart := x.validTimeStart
  validTimeEnd := x.validTimeEnd
  assertionTime := x.assertionTime
  h3Index := x.h3Index
  payload := []
  payloadDigest := x.payloadDigest

def engineLiveRead (R : Runtime) (e : Engine) (entityID : EntityID) (txTimeNs : Int64) : List TriTemporalEvent :=
  ((e.pointGet R entityID).filter fun x => !(txTimeNs < x.systemTime)).map (liveEvent entityID)

/-- The resolver of a node with engine `e`. -/
def nodeResolver (R : Runtime) (c : ResolverConfig) (e : Engine) : Resolver := ⟨R, c, some (engineLiveRead R e)⟩

variable {R : Runtime}

theorem mem_liveRead_nodeResolver {c : ResolverConfig} {e : Engine} {entityID : EntityID} {txTimeNs : Int64}
    {ev : TriTemporalEvent} : ev ∈ (nodeResolver R c e).liveRead entityID txTimeNs ↔
      ∃ x ∈ e.pointGet R entityID, x.systemTime ≤ txTimeNs ∧ liveEvent entityID x = ev := by
  simp only [Resolver.liveRead, nodeResolver, engineLiveRead, List.map_map, List.mem_map, List.mem_filter,
    Bool.not_eq_true', decide_eq_false_iff_not, Int64.not_lt, and_assoc]
  rfl

variable {now : Int64} {req : InsertRequest}

/-- An accepted item is among the entries of its entity, whatever changes come later. -/
theorem GossipNode.Accepted.mem_pointGet {s s' : GossipNode}
    (h : GossipNode.Accepted R s now req s') (hm : s.gossiper.engine.Mounted R) (later : List Engine.Change) :
    ∃ x ∈ (later.foldl (Engine.change R) s'.gossiper.engine).pointGet R req.key,
      x.systemTime = now ∧ x.validTimeStart = req.validFrom now ∧ x.validTimeEnd = req.validEnd now := by
  obtain ⟨cs, hengine, hput⟩ := h.changes
  obtain ⟨before, after, rfl⟩ := List.append_of_mem hput
  obtain ⟨hm₁, -⟩ := hm.changes before
  set e := before.foldl (Engine.change R) s.gossiper.engine with he
  obtain ⟨hm₂, hget⟩ := hm₁.insertLocal (req.item now).entityID ((req.item now).digested R)
  refine ⟨e.stamp e.nextDot.1 ((req.item now).digested R), ?_, rfl, rfl, rfl⟩
  rw [hengine, ← List.foldl_append, List.append_assoc, List.foldl_append, ← he]
  refine (Engine.Mounted.changes hm₂ (after ++ later)).2 req.key ?_
  rw [hget, if_pos (show req.key = (req.item now).entityID from rfl)]
  exact mem_insertFromEnd.mpr (.inl rfl)

/-! ### Insert, then query -/

/-- A query at the start of its interval finds an accepted request, or a later row: whatever the node held
before, whatever files there are, and whatever changes the engine later. -/
def FoundAgain (R : Runtime) (now : Int64) (req : InsertRequest) : Prop :=
  ∀ s s' : GossipNode, s.gossiper.engine.Mounted R → GossipNode.Accepted R s now req s' →
    ∀ (later : List Engine.Change) (c : ResolverConfig) (f : QueryFaults) (store : ObjectStore) (txTimeNs : Int64),
      f.listL1 = false → f.listL0 = false → now ≤ txTimeNs →
        ∃ ev, (nodeResolver R c (later.foldl (Engine.change R) s'.gossiper.engine)).asOf f store
          ⟨req.key, req.validFrom now, txTimeNs⟩ = .ok ev ∧ now ≤ ev.systemTime

theorem foundAgain_of_window (hkey : req.key ≠ []) (hnow : 0 < now)
    (hfrom : req.validFrom now < openEndedValidEndNs) : FoundAgain R now req := by
  intro s s' hm hacc later c f store txTimeNs hl1 hl0 htx
  obtain ⟨x, hx, hsys, hstart, hend⟩ := hacc.mem_pointGet hm later
  have hwindow := (req.validFrom_lt_validEnd_iff now).mpr hfrom
  set r := nodeResolver R c (later.foldl (Engine.change R) s'.gossiper.engine) with hr
  have hlive : liveEvent req.key x ∈ r.live ⟨req.key, req.validFrom now, txTimeNs⟩ := by
    refine ⟨mem_liveRead_nodeResolver.mpr ⟨x, hx, hsys ▸ htx, rfl⟩, ?_⟩
    simp [AsOfQuery.admitsTimes, liveEvent, hsys, hstart, hend, htx, hwindow]
  obtain ⟨ev, hfound, -, hle⟩ := asOf_of_candidate (f := f) (s := store) hkey hl1 hl0 (.inr hlive)
    (by rw [liveEvent, hsys]; exact hnow)
  refine ⟨ev, hfound, ?_⟩
  rw [liveEvent, hsys] at hle
  exact hle

theorem accepted_of_no_disk {s : GossipNode} (hdisk : s.disk = none)
    (hkey : req.key ≠ []) : s.Accepted R now req (s.insertLocalEvents R (req.item now) Faults.none).1 := by
  have hempty : req.key.isEmpty = false := by simpa using hkey
  refine .single Faults.none (s.insertLocalEvents R (req.item now) Faults.none).2 ?_
  simp [GossipNode.handleInsert, hempty, hdisk]

/-- A node without a log that has just booted. -/
def bareNode : GossipNode :=
  .fresh ⟨.copyFrom 16 [9], [], .copyFrom 32 [9], none, none⟩ ⟨fun _ => 0, 0⟩ 0 false none

theorem wf_bareNode : bareNode.gossiper.engine.WF R :=
  Engine.wf_newEngine (show 0 < defaultShardCount by decide) _ _ _ _

/-- On a bare node a request is the only entry of its entity. -/
theorem pointGet_bareNode (now : Int64) (req : InsertRequest) {x : CRDTEntry}
    (hx : x ∈ (bareNode.insertLocalEvents R (req.item now) Faults.none).1.gossiper.engine.pointGet R req.key) :
    x.systemTime = now ∧ x.validTimeStart = req.validFrom now ∧ x.validTimeEnd = req.validEnd now := by
  have hget := (wf_bareNode (R := R)).mounted.insertLocal (req.item now).entityID ((req.item now).digested R)
  have hnone : bareNode.gossiper.engine.pointGet R (req.item now).entityID = [] :=
    Engine.pointGet_newEngine (show 0 < defaultShardCount by decide) _ _ _ _ _
  rw [GossipNode.engine_insertLocalEvents, GossipNode.itemChange, Engine.change, hget.2,
    if_pos (show req.key = (req.item now).entityID from rfl), hnone, mem_insertFromEnd] at hx
  rcases hx with rfl | hx
  · exact ⟨rfl, rfl, rfl⟩
  · cases hx

/-- **A request is found again exactly if its interval starts before the open end**, and the clock stands
after zero. -/
theorem inserted_row_is_found_iff (R : Runtime) (now : Int64) (req : InsertRequest) (hkey : req.key ≠ []) :
    FoundAgain R now req ↔ 0 < now ∧ req.validFrom now < openEndedValidEndNs := by
  refine ⟨fun h => ?_, fun ⟨hnow, hfrom⟩ => foundAgain_of_window hkey hnow hfrom⟩
  -- on a bare node with no files the row itself is all there is to find
  obtain ⟨ev, hfound, -⟩ := h bareNode _ wf_bareNode.mounted (accepted_of_no_disk rfl hkey) []
    defaultResolverConfig QueryFaults.none ∅ now rfl rfl (Int64.le_refl now)
  obtain ⟨hmem, hpos⟩ := mem_of_asOf_eq_ok hfound
  rcases hmem with ⟨key, -, rows, hrows, -⟩ | ⟨hlive, hadm⟩
  · have hnone : fileRows defaultResolverConfig QueryFaults.none ∅ now key = none := by
      simp [fileRows, ObjectStore.readRows]
    exact absurd (hrows.symm.trans hnone) (by simp)
  · obtain ⟨x, hx, -, rfl⟩ := mem_liveRead_nodeResolver.mp hlive
    obtain ⟨hsys, hstart, hend⟩ := pointGet_bareNode now req hx
    simp only [AsOfQuery.admitsTimes, liveEvent, hstart, hend, Bool.and_eq_true, Bool.not_eq_true',
      Bool.or_eq_false_iff, decide_eq_false_iff_not, Int64.not_le] at hadm
    exact ⟨hsys ▸ hpos, (req.validFrom_lt_validEnd_iff now).mp hadm.2.2⟩

/-- A request that claims a start and a duration is found again. -/
theorem inserted_row_is_found_on_sample :
    FoundAgain .sample 1700000000000000000 ⟨[0x61], [0x70], some 5, some 10⟩ :=
  (inserted_row_is_found_iff .sample 1700000000000000000 ⟨[0x61], [0x70], some 5, some 10⟩ (by decide)).mpr
    (by decide)

/-- A request that is valid from the open end on. -/
def openEndRequest : InsertRequest := ⟨[0x61], [0x70], some 9000000000000000000, none⟩

set_option maxRecDepth 100000 in
/-- It is accepted, and a query at its start does not find it. -/
theorem insert_at_open_end_is_not_found : ¬ FoundAgain .sample 1700000000000000000 openEndRequest := by
  intro h
  obtain ⟨ev, hfound, -⟩ := h bareNode _ wf_bareNode.mounted (accepted_of_no_disk rfl (by decide)) []
    defaultResolverConfig QueryFaults.none ∅ 1700000000000000000 rfl rfl (by decide)
  have hnone : ((nodeResolver .sample defaultResolverConfig (bareNode.insertLocalEvents .sample
      (openEndRequest.item 1700000000000000000) Faults.none).1.gossiper.engine).asOf QueryFaults.none ∅
        ⟨openEndRequest.key, openEndRequest.validFrom 1700000000000000000, 1700000000000000000⟩).toOption = none := by
    decide +kernel
  rw [List.foldl_nil] at hfound
  rw [hfound] at hnone
  cases hnone

end Sovereign.Mesh

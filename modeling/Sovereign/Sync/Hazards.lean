import Sovereign.Lib.Run
import Sovereign.Sync.Reclamation

/-!
# What a drain does with protected blocks

`freeRetiredList` on one list, as the steps of `EBRManager`: the hazard slots of all participants are read
into a snapshot of 64 addresses, then the list is walked.  A block in the snapshot is retired again, all
others go to the free list.

* `run_snapshot` — the snapshot has the first 64 non-nil slots in the order of the scan, and no more;
* `run_walk` — the walk frees the blocks that are not in the snapshot and requeues the others, none of which
  is lost (`requeued_drained`).

So a drain respects all hazards **iff** those of its list are among the first 64 (`Covered`), which is the
case if no more slots are in use.
-/

namespace Sovereign.Sync

open Lib

namespace EBRManager

/-! ### The hazards of a state -/

def slotsOf (s : EBRManager) (p : ℕ) : List Block := (List.range HazardSlots).map (s.participants p).hazards

/-- The hazard slots that are in use, in the order `freeRetiredList` reads them. -/
def hazards (s : EBRManager) : List Block := (s.chain.flatMap s.slotsOf).filter (· ≠ 0)

/-- The address is in the hazard slot of some participant. -/
def Protected (s : EBRManager) (b : Block) : Prop :=
  b ≠ 0 ∧ ∃ p < s.registered, ∃ slot < HazardSlots, (s.participants p).hazards slot = b

/-- The protected blocks of the list are among those the snapshot has room for. -/
def Covered (s : EBRManager) (list : List RetiredNode) : Prop :=
  ∀ n ∈ list, s.Protected n.block → n.block ∈ s.hazards.take hazardSnapshotSize

theorem mem_hazards {s : EBRManager} {b : Block} : b ∈ s.hazards ↔ s.Protected b := by
  simp only [hazards, chain, slotsOf, List.mem_filter, List.mem_flatMap, List.mem_reverse, List.mem_range, List.mem_map,
    decide_eq_true_eq]
  exact and_comm

/-- Where the snapshot has room for all hazards, nothing is missed. -/
theorem covered_of_le {s : EBRManager} (h : s.hazards.length ≤ hazardSnapshotSize) (list : List RetiredNode) :
    s.Covered list := by
  intro n _ hn
  rw [List.take_of_length_le h]
  exact mem_hazards.mpr hn

/-! ### The snapshot -/

/-- One slot of the scan. -/
def record (snapshot : List Block) (hp : Block) : List Block :=
  if hp ≠ 0 ∧ snapshot.length < hazardSnapshotSize then snapshot ++ [hp] else snapshot

/-- The snapshot fills up with the slots in use. -/
theorem foldl_record (slots snapshot : List Block) :
    slots.foldl record snapshot =
      snapshot ++ (slots.filter (· ≠ 0)).take (hazardSnapshotSize - snapshot.length) := by
  induction slots generalizing snapshot with
  | nil => simp
  | cons hp slots ih =>
    rw [List.foldl_cons, ih, record]
    by_cases hnil : hp = 0
    · rw [if_neg fun h => h.1 hnil, List.filter_cons_of_neg (by simp [hnil])]
    · rw [List.filter_cons_of_pos (by simpa using hnil)]
      by_cases hroom : snapshot.length < hazardSnapshotSize
      · have hsub : hazardSnapshotSize - snapshot.length = hazardSnapshotSize - (snapshot.length + 1) + 1 := by omega
        rw [if_pos ⟨hnil, hroom⟩, hsub, List.take_succ_cons, List.length_append, List.length_singleton,
          List.append_assoc]
        rfl
      · have hfull : hazardSnapshotSize - snapshot.length = 0 := by omega
        rw [if_neg fun h => hroom h.2, hfull, List.take_zero, List.take_zero]

section
variable {s : EBRManager} {t : ℕ}

@[simp] theorem threads_setThread (s : EBRManager) (t : ℕ) (th : Thread) : (s.setThread t th).threads t = th :=
  Function.update_self _ _ _

@[simp] theorem setThread_setThread (s : EBRManager) (t : ℕ) (th th' : Thread) :
    (s.setThread t th).setThread t th' = s.setThread t th' := by
  rw [setThread, setThread, setThread, Function.update_idem]

theorem step_snapshot (s : EBRManager) (t p : ℕ) (chain : List ℕ) (slot : ℕ) (snapshot : List Block)
    (list : List RetiredNode) (heads : List (List RetiredNode)) :
    step (s.setThread t (.snapshot (p :: chain) slot snapshot list heads)) (.thread t) =
      some (s.setThread t (if slot + 1 < HazardSlots then
          .snapshot (p :: chain) (slot + 1) (record snapshot ((s.participants p).hazards slot)) list heads
        else .snapshot chain 0 (record snapshot ((s.participants p).hazards slot)) list heads), []) := by
  rw [step, threadStep, threads_setThread]
  dsimp only
  rw [setThread_setThread]
  rfl

/-- The four slots of one participant. -/
theorem run_slots (s : EBRManager) (t p : ℕ) (chain : List ℕ) (snapshot : List Block) (list : List RetiredNode)
    (heads : List (List RetiredNode)) :
    run step (s.setThread t (.snapshot (p :: chain) 0 snapshot list heads)) (.replicate HazardSlots (.thread t)) =
      some (s.setThread t (.snapshot chain 0 ((s.slotsOf p).foldl record snapshot) list heads), []) :=
  run_cons (step_snapshot ..) (run_cons (step_snapshot ..) (run_cons (step_snapshot ..)
    (run_cons (step_snapshot ..) rfl)))

/-- **The snapshot** takes the first slots in use. -/
theorem run_snapshot (s : EBRManager) (t : ℕ) (chain : List ℕ) (snapshot : List Block) (list : List RetiredNode)
    (heads : List (List RetiredNode)) :
    run step (s.setThread t (.snapshot chain 0 snapshot list heads))
        (.replicate (chain.length * HazardSlots + 1) (.thread t)) =
      some (s.setThread t (.walk ((chain.flatMap s.slotsOf).foldl record snapshot) list heads), []) := by
  induction chain generalizing snapshot with
  | nil => simp [run, step, threadStep]
  | cons p chain ih =>
    have hcount : (p :: chain).length * HazardSlots + 1 = HazardSlots + (chain.length * HazardSlots + 1) := by
      rw [List.length_cons]
      ring
    rw [hcount, List.replicate_add, List.flatMap_cons, List.foldl_append]
    exact run_append (run_slots s t p chain snapshot list heads) (ih _)

end

/-! ### The walk -/

/-- The nested `Retire` of a protected block. -/
def requeue (s : EBRManager) (n : RetiredNode) : EBRManager :=
  { s with retiredRoute := (s.retiredRoute + 1) % 2 ^ 64 }.setRetired (s.globalEpoch % 3)
    (s.retiredRoute % arenaRetiredFreelistShardCount)
    (n :: s.retired (s.globalEpoch % 3) (s.retiredRoute % arenaRetiredFreelistShardCount))

def isProtected (snapshot : List Block) (n : RetiredNode) : Bool := n.block ≠ 0 ∧ n.block ∈ snapshot

def drained (snapshot : List Block) (s : EBRManager) (list : List RetiredNode) : EBRManager :=
  (list.filter (isProtected snapshot)).foldl requeue s

def drainLog (snapshot : List Block) (list : List RetiredNode) : List Event :=
  (list.filter fun n => !isProtected snapshot n).map fun n => .freed n.call

def walkLength (snapshot : List Block) : List RetiredNode → ℕ
  | [] => 0
  | n :: list => (if isProtected snapshot n then 3 else 1) + walkLength snapshot list

section
variable {s : EBRManager} {snapshot : List Block} {n : RetiredNode}

theorem step_walk_freed (s : EBRManager) (t : ℕ) (list : List RetiredNode) (heads : List (List RetiredNode))
    (hn : isProtected snapshot n = false) :
    step (s.setThread t (.walk snapshot (n :: list) heads)) (.thread t) =
      some (s.setThread t (.walk snapshot list heads), [.freed n.call]) := by
  rw [step, threadStep, threads_setThread]
  dsimp only
  rw [if_neg (of_decide_eq_false hn), setThread_setThread]

/-- A block in the snapshot is retired again, in three steps. -/
theorem run_walk_requeue (s : EBRManager) (t : ℕ) (list : List RetiredNode) (heads : List (List RetiredNode))
    (hn : isProtected snapshot n = true) :
    run step (s.setThread t (.walk snapshot (n :: list) heads)) [.thread t, .thread t, .thread t] =
      some ((s.requeue n).setThread t (.walk snapshot list heads), []) := by
  have hwalk : step (s.setThread t (.walk snapshot (n :: list) heads)) (.thread t) =
      some (s.setThread t (.retiring n (s.globalEpoch % 3) none (.walk snapshot list heads)), []) := by
    rw [step, threadStep, threads_setThread]
    dsimp only
    rw [if_pos (of_decide_eq_true hn), setThread_setThread]
    rfl
  have hroute : step (s.setThread t (.retiring n (s.globalEpoch % 3) none (.walk snapshot list heads))) (.thread t) =
      some ({ s with retiredRoute := (s.retiredRoute + 1) % 2 ^ 64 }.setThread t (.retiring n (s.globalEpoch % 3)
        (some (s.retiredRoute % arenaRetiredFreelistShardCount)) (.walk snapshot list heads)), []) := by
    rw [step, threadStep, threads_setThread]
    dsimp only
    rw [setThread, setThread, setThread, Function.update_idem]
  have hpush : step ({ s with retiredRoute := (s.retiredRoute + 1) % 2 ^ 64 }.setThread t
      (.retiring n (s.globalEpoch % 3) (some (s.retiredRoute % arenaRetiredFreelistShardCount))
        (.walk snapshot list heads))) (.thread t) =
      some ((s.requeue n).setThread t (.walk snapshot list heads), []) := by
    rw [step, threadStep, threads_setThread]
    dsimp only
    rw [requeue, setThread, setRetired, setThread, setRetired, setThread, Function.update_idem]
  exact run_cons hwalk (run_cons hroute (run_cons hpush rfl))

/-- **The walk** frees the blocks that are not in the snapshot, and retires the others again. -/
theorem run_walk (s : EBRManager) (t : ℕ) (snapshot : List Block) (list : List RetiredNode)
    (heads : List (List RetiredNode)) :
    run step (s.setThread t (.walk snapshot list heads)) (.replicate (walkLength snapshot list) (.thread t)) =
      some ((drained snapshot s list).setThread t (.walk snapshot [] heads), drainLog snapshot list) := by
  induction list generalizing s with
  | nil => rfl
  | cons n list ih =>
    rw [walkLength, List.replicate_add, drained, drainLog]
    cases hn : isProtected snapshot n with
    | true =>
      rw [List.filter_cons_of_pos hn, List.filter_cons_of_neg (by rw [hn]; exact Bool.false_ne_true),
        List.foldl_cons]
      exact run_append (run_walk_requeue s t list heads hn) (ih _)
    | false =>
      rw [List.filter_cons_of_neg (by rw [hn]; exact Bool.false_ne_true),
        List.filter_cons_of_pos (by rw [hn]; rfl), List.map_cons]
      have hone : run step (s.setThread t (.walk snapshot (n :: list) heads)) [.thread t] =
          some (s.setThread t (.walk snapshot list heads), [.freed n.call]) :=
        run_cons (step_walk_freed s t list heads hn) rfl
      exact run_append hone (ih s)

theorem retired_requeue (s : EBRManager) (n m : RetiredNode) (idx shard : ℕ) (hm : m ∈ s.retired idx shard) :
    m ∈ (s.requeue n).retired idx shard := by
  show m ∈ Function.update s.retired _ (Function.update (s.retired _) _ _) idx shard
  by_cases hidx : idx = s.globalEpoch % 3
  · subst hidx
    rw [Function.update_self]
    by_cases hshard : shard = s.retiredRoute % arenaRetiredFreelistShardCount
    · subst hshard
      rw [Function.update_self]
      exact List.mem_cons_of_mem _ hm
    · rwa [Function.update_of_ne hshard]
  · rwa [Function.update_of_ne hidx]

theorem requeued (s : EBRManager) (n : RetiredNode) :
    ∃ shard < arenaRetiredFreelistShardCount, n ∈ (s.requeue n).retired (s.globalEpoch % 3) shard := by
  refine ⟨s.retiredRoute % arenaRetiredFreelistShardCount, Nat.mod_lt _ (by decide), ?_⟩
  show n ∈ Function.update s.retired _ (Function.update (s.retired _) _ _) _ _
  rw [Function.update_self, Function.update_self]
  exact List.mem_cons_self

/-- **No protected block is lost**: it is in a list of the current epoch. -/
theorem requeued_drained {nodes : List RetiredNode} (hn : n ∈ nodes) :
    ∃ shard < arenaRetiredFreelistShardCount, n ∈ (nodes.foldl requeue s).retired (s.globalEpoch % 3) shard := by
  have hstay : ∀ (rest : List RetiredNode) (s : EBRManager) (idx shard : ℕ), n ∈ s.retired idx shard →
      n ∈ (rest.foldl requeue s).retired idx shard := by
    intro rest
    induction rest with
    | nil => exact fun _ _ _ h => h
    | cons m rest ih => exact fun s idx shard h => ih _ idx shard (s.retired_requeue m n idx shard h)
  induction nodes generalizing s with
  | nil => cases hn
  | cons m nodes ih =>
    rcases List.mem_cons.mp hn with rfl | hn
    · obtain ⟨shard, hlt, hin⟩ := s.requeued n
      exact ⟨shard, hlt, hstay nodes _ _ shard hin⟩
    · exact ih (s := s.requeue m) hn

end

/-! ### A drain of one list -/

/-- The nodes with a protected block were not freed and are in a list of the current epoch. -/
def HazardsRespected (s s' : EBRManager) (list : List RetiredNode) (log : List Event) : Prop :=
  ∀ n ∈ list, s.Protected n.block → .freed n.call ∉ log ∧
    ∃ shard < arenaRetiredFreelistShardCount, n ∈ s'.retired (s.globalEpoch % 3) shard

/-- **A drain respects all hazards iff those of its list are among the first 64.** The thread of an advance starts
`freeRetiredList` on a list; it comes to the end of the list, and there no block that some participant protects has
been freed or lost exactly if the snapshot has room for the protected ones. -/
theorem drain_respects_hazards_iff (s : EBRManager) (t : ℕ) (snapshot : List Block) (list : List RetiredNode)
    (heads : List (List RetiredNode)) (hstart : s.threads t = .walk snapshot [] (list :: heads))
    (hcalls : (list.map RetiredNode.call).Nodup) :
    ∃ k s' log, run step s (.replicate k (.thread t)) = some (s', log) ∧
      s'.threads t = .walk (s.hazards.take hazardSnapshotSize) [] heads ∧
      (HazardsRespected s s' list log ↔ s.Covered list) := by
  have hfirst : step s (.thread t) = some (s.setThread t (.snapshot s.chain 0 [] list heads), []) := by
    rw [step, threadStep, hstart]
  have hsnapshot := run_snapshot s t s.chain [] list heads
  rw [foldl_record, List.nil_append, List.length_nil, Nat.sub_zero] at hsnapshot
  have hwalk := run_walk s t (s.hazards.take hazardSnapshotSize) list heads
  have hrun := run_append (run_cons hfirst hsnapshot) hwalk
  rw [← List.replicate_succ, ← List.replicate_add] at hrun
  refine ⟨_, _, _, hrun, threads_setThread _ _ _, fun hrespected n hn hprot => ?_, fun hcovered n hn hprot => ?_⟩
  · by_contra hout
    refine (hrespected n hn hprot).1 (List.mem_map_of_mem (List.mem_filter.mpr ⟨hn, ?_⟩))
    simp [isProtected, hout]
  · have hin : isProtected (s.hazards.take hazardSnapshotSize) n = true :=
      decide_eq_true ⟨hprot.1, hcovered n hn hprot⟩
    refine ⟨fun hfreed => ?_, requeued_drained (List.mem_filter.mpr ⟨hn, hin⟩)⟩
    obtain ⟨m, hm, hcall⟩ := List.mem_map.mp hfreed
    obtain ⟨hm, hout⟩ := List.mem_filter.mp hm
    rw [List.inj_on_of_nodup_map hcalls hm hn (Event.freed.inj hcall), hin] at hout
    cases hout

/-- That many participants protect the addresses from 1 on, one each, and an advance is about to drain a list with
the first of them. -/
def crowded (participants : ℕ) : EBRManager :=
  { new with
    registered := participants
    participants := fun p => { Participant.new with hazards := fun slot => if slot = 0 then p + 1 else 0 }
    threads := fun _ => .walk [] [] [[⟨.node, 1, 0⟩]] }

theorem drain_respects_hazards_of_sixty_four :
    ∃ k s' log, run step (crowded 64) (.replicate k (.thread 0)) = some (s', log) ∧
      HazardsRespected (crowded 64) s' [⟨.node, 1, 0⟩] log := by
  obtain ⟨k, s', log, hrun, -, hiff⟩ :=
    drain_respects_hazards_iff (crowded 64) 0 [] [⟨.node, 1, 0⟩] [] rfl (by decide)
  exact ⟨k, s', log, hrun, hiff.mpr (covered_of_le (by decide +kernel) _)⟩

/-- **The hazard of the sixty-fifth is not seen**: the block at 1, which participant 0 protects, is freed.  The scan
comes to the participant that registered first last. -/
theorem sixty_fifth_hazard_is_ignored :
    (crowded 65).Protected 1 ∧
    ∃ s' log, run step (crowded 65) (.replicate 263 (.thread 0)) = some (s', log) ∧ .freed 0 ∈ log := by
  have hrun : (run step (crowded 65) (.replicate 263 (.thread 0))).any (fun r => .freed 0 ∈ r.2) = true := by
    decide +kernel
  refine ⟨⟨by decide, 0, by decide, 0, by decide, rfl⟩, ?_⟩
  cases hr : run step (crowded 65) (.replicate 263 (.thread 0)) with
  | none =>
    rw [hr] at hrun
    cases hrun
  | some r =>
    rw [hr] at hrun
    exact ⟨r.1, r.2, rfl, of_decide_eq_true hrun⟩

end EBRManager

end Sovereign.Sync

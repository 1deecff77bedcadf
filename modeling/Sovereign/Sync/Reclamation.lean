import Mathlib

/-!
# Epoch-based reclamation, step by step

`pkg/sync/reclamation.go` as a machine of atomic steps.  Any number of threads run `Retire`, `RetireBlock` and
`AdvanceEpoch`; any number of participants enter, exit and detach; a schedule (`List Action`) says who takes the next
step.

* `Participant.Enter` stores `active`, reads the global epoch and stores it in three steps, `Exit` stores
  `InactiveEpoch` and clears `active` in two; both clear the hazard slots one by one first.  `DetachAndProtect` sets a
  slot and leaves as `Exit` does.
* `Retire` and `RetireBlock` read the epoch, draw a shard and push onto one of the three lists.  A push is its
  successful compare-and-swap: an attempt that fails changes nothing.
* `AdvanceEpoch` reads the epoch, the participant chain, `active` and `epoch` of each participant, swaps the epoch,
  swaps out the 256 shards of one list and frees what it took: `freeRetiredList` reads all hazard slots and puts
  protected blocks back with a `Retire` of its own.

The log of a run has the moments a reader can see: a participant has entered, has left, a retire call started, a block
was freed.  A retired block carries the number of its call, which only the log uses.

What tearing a `HAMT` down retires in turn (`DecRef`, `freeHAMTWrapper`) are further `RetireBlock` calls, which any
thread may make here at any time.
-/

namespace Sovereign.Sync

def InactiveEpoch : ℕ := 2 ^ 64 - 1

def HazardSlots : ℕ := 4

def arenaRetiredFreelistShardCount : ℕ := 256

def hazardSnapshotSize : ℕ := 64

/-- An address; `0` is nil. -/
abbrev Block := ℕ

/-- `RetiredNode.Type`: a trie wrapper, a node slot or a variable-size slot. -/
inductive RetiredType where
  | hamt
  | node
  | var
deriving DecidableEq, Repr

/-- `RetiredNode`, and the number of the call that retired it. -/
structure RetiredNode where
  type : RetiredType
  block : Block
  call : ℕ
deriving DecidableEq, Repr

/-- Where the owner of a participant stands. -/
inductive Phase where
  | outside
  /-- `Enter`: that many hazard slots are cleared. -/
  | entering (cleared : ℕ)
  /-- `Enter` has stored `active`. -/
  | pinning
  /-- `Enter` has read the global epoch. -/
  | pinned (epoch : ℕ)
  | inside
  /-- `Exit`: that many hazard slots are cleared. -/
  | exiting (cleared : ℕ)
  /-- `DetachAndProtect`, before the hazard store. -/
  | detaching (slot : ℕ) (ptr : Block)
  /-- `DetachAndProtect` has stored the hazard. -/
  | detached
  /-- `InactiveEpoch` is stored. -/
  | unpinning
deriving DecidableEq, Repr

structure Participant where
  active : Bool
  epoch : ℕ
  hazards : ℕ → Block
  phase : Phase

/-- A participant as `Register` makes it. -/
def Participant.new : Participant := ⟨false, 0, fun _ => 0, .outside⟩

/-- Where a thread stands in its call.  `next` is what the thread goes on with after a nested `Retire`. -/
inductive Thread where
  | idle
  /-- `Retire`: the epoch is read; the shard is drawn or not yet. -/
  | retiring (n : RetiredNode) (idx : ℕ) (shard : Option ℕ) (next : Thread)
  /-- `AdvanceEpoch` has read the epoch. -/
  | head (currentEpoch : ℕ)
  /-- The scan is at the first of the chain and reads `active`; at its end it swaps the epoch. -/
  | scan (currentEpoch : ℕ) (chain : List ℕ)
  /-- The participant was active; its epoch is read next. -/
  | check (currentEpoch : ℕ) (p : ℕ) (rest : List ℕ)
  /-- The epoch is swapped; the shards below `shard` are taken. -/
  | drain (currentEpoch : ℕ) (shard : ℕ) (heads : List (List RetiredNode))
  /-- `freeRetiredList` reads the hazard slots. -/
  | snapshot (chain : List ℕ) (slot : ℕ) (hazards : List Block) (list : List RetiredNode)
      (heads : List (List RetiredNode))
  /-- `freeRetiredList` walks a list. -/
  | walk (hazards : List Block) (list : List RetiredNode) (heads : List (List RetiredNode))

/-- `EBRManager`, its participants and its threads.  Participants are numbered in the order of their `Register`. -/
structure EBRManager where
  globalEpoch : ℕ
  registered : ℕ
  participants : ℕ → Participant
  retired : ℕ → ℕ → List RetiredNode
  retiredRoute : ℕ
  threads : ℕ → Thread
  calls : ℕ

inductive Event where
  /-- `Enter` has stored the epoch. -/
  | entered (p : ℕ)
  /-- `Exit` or `DetachAndProtect` has stored `InactiveEpoch`. -/
  | left (p : ℕ)
  /-- A `Retire` or `RetireBlock` call has started. -/
  | retired (call : ℕ)
  /-- The block of that call was handed to the free list. -/
  | freed (call : ℕ)
deriving DecidableEq, Repr

/-- The choices of a scheduler. -/
inductive Action where
  /-- `Register`. -/
  | register
  | enter (p : ℕ)
  | exit (p : ℕ)
  | detach (p slot : ℕ) (ptr : Block)
  /-- The next step of the participant's call. -/
  | participant (p : ℕ)
  /-- `Retire` (`hamt`) or `RetireBlock` (`node`, `var`) on a thread that is idle. -/
  | retire (t : ℕ) (type : RetiredType) (block : Block)
  /-- `AdvanceEpoch` on a thread that is idle. -/
  | advance (t : ℕ)
  /-- The next step of the thread's call. -/
  | thread (t : ℕ)

namespace EBRManager

/-- `NewEBRManager`. -/
def new : EBRManager := ⟨0, 0, fun _ => .new, fun _ _ => [], 0, fun _ => .idle, 0⟩

def chain (s : EBRManager) : List ℕ := (List.range s.registered).reverse

def setParticipant (s : EBRManager) (p : ℕ) (q : Participant) : EBRManager :=
  { s with participants := Function.update s.participants p q }

def setThread (s : EBRManager) (t : ℕ) (th : Thread) : EBRManager :=
  { s with threads := Function.update s.threads t th }

def setRetired (s : EBRManager) (idx shard : ℕ) (l : List RetiredNode) : EBRManager :=
  { s with retired := Function.update s.retired idx (Function.update (s.retired idx) shard l) }

/-- The list an advance drains: `(currentEpoch + 2) % 3`. -/
def safeIdx (currentEpoch : ℕ) : ℕ := (currentEpoch + 2) % 2 ^ 64 % 3

/-- The next step of `Enter`, `Exit` or `DetachAndProtect`. -/
def participantStep (s : EBRManager) (p : ℕ) : Option (EBRManager × List Event) :=
  let q := s.participants p
  match q.phase with
  | .outside => none
  | .entering k =>
    if k < HazardSlots then
      some (s.setParticipant p { q with hazards := Function.update q.hazards k 0, phase := .entering (k + 1) }, [])
    else some (s.setParticipant p { q with active := true, phase := .pinning }, [])
  | .pinning => some (s.setParticipant p { q with phase := .pinned s.globalEpoch }, [])
  | .pinned e => some (s.setParticipant p { q with epoch := e, phase := .inside }, [.entered p])
  | .inside => none
  | .exiting k =>
    if k < HazardSlots then
      some (s.setParticipant p { q with hazards := Function.update q.hazards k 0, phase := .exiting (k + 1) }, [])
    else some (s.setParticipant p { q with epoch := InactiveEpoch, phase := .unpinning }, [.left p])
  | .detaching slot ptr =>
    some (s.setParticipant p { q with hazards := Function.update q.hazards slot ptr, phase := .detached }, [])
  | .detached => some (s.setParticipant p { q with epoch := InactiveEpoch, phase := .unpinning }, [.left p])
  | .unpinning => some (s.setParticipant p { q with active := false, phase := .outside }, [])

/-- The next step of `Retire`, `RetireBlock` or `AdvanceEpoch`. -/
def threadStep (s : EBRManager) (t : ℕ) : Option (EBRManager × List Event) :=
  match s.threads t with
  | .idle => none
  | .retiring n idx none next =>
    some ({ s with retiredRoute := (s.retiredRoute + 1) % 2 ^ 64 }.setThread t
      (.retiring n idx (some (s.retiredRoute % arenaRetiredFreelistShardCount)) next), [])
  | .retiring n idx (some shard) next =>
    some ((s.setRetired idx shard (n :: s.retired idx shard)).setThread t next, [])
  | .head c => some (s.setThread t (.scan c s.chain), [])
  | .scan c [] =>
    if s.globalEpoch = c then
      some ({ s with globalEpoch := (c + 1) % 2 ^ 64 }.setThread t (.drain c 0 []), [])
    else some (s.setThread t .idle, [])
  | .scan c (p :: rest) =>
    some (s.setThread t (if (s.participants p).active then .check c p rest else .scan c rest), [])
  | .check c p rest =>
    -- a participant below the epoch ends the call
    some (s.setThread t (if (s.participants p).epoch < c then .idle else .scan c rest), [])
  | .drain c shard heads =>
    if shard < arenaRetiredFreelistShardCount then
      some ((s.setRetired (safeIdx c) shard []).setThread t
        (.drain c (shard + 1) (heads ++ [s.retired (safeIdx c) shard])), [])
    else some (s.setThread t (.walk [] [] heads), [])
  | .snapshot [] _ hazards list heads => some (s.setThread t (.walk hazards list heads), [])
  | .snapshot (p :: chain) slot hazards list heads =>
    let hp := (s.participants p).hazards slot
    let hazards' := if hp ≠ 0 ∧ hazards.length < hazardSnapshotSize then hazards ++ [hp] else hazards
    some (s.setThread t (if slot + 1 < HazardSlots then .snapshot (p :: chain) (slot + 1) hazards' list heads
      else .snapshot chain 0 hazards' list heads), [])
  | .walk _ [] [] => some (s.setThread t .idle, [])
  | .walk _ [] (list :: heads) => some (s.setThread t (.snapshot s.chain 0 [] list heads), [])
  | .walk hazards (n :: list) heads =>
    if n.block ≠ 0 ∧ n.block ∈ hazards then
      some (s.setThread t (.retiring n (s.globalEpoch % 3) none (.walk hazards list heads)), [])
    else some (s.setThread t (.walk hazards list heads), [.freed n.call])

/-- One atomic step.  `none` is a choice the scheduler does not have: a call of somebody who is in the middle of
another one. -/
def step (s : EBRManager) : Action → Option (EBRManager × List Event)
  | .register => some ({ s with registered := s.registered + 1 }, [])
  | .enter p =>
    match (s.participants p).phase with
    | .outside =>
      if p < s.registered then some (s.setParticipant p { s.participants p with phase := .entering 0 }, [])
      else none
    | _ => none
  | .exit p =>
    match (s.participants p).phase with
    | .inside | .outside =>
      if p < s.registered then some (s.setParticipant p { s.participants p with phase := .exiting 0 }, [])
      else none
    | _ => none
  | .detach p slot ptr =>
    match (s.participants p).phase with
    | .inside | .outside =>
      -- a slot out of range is refused without effect
      if p < s.registered ∧ slot < HazardSlots then
        some (s.setParticipant p { s.participants p with phase := .detaching slot ptr }, [])
      else none
    | _ => none
  | .participant p => s.participantStep p
  | .retire t type block =>
    match s.threads t with
    | .idle =>
      some ({ s with calls := s.calls + 1 }.setThread t
        (.retiring ⟨type, block, s.calls⟩ (s.globalEpoch % 3) none .idle), [.retired s.calls])
    | _ => none
  | .advance t =>
    match s.threads t with
    | .idle => some (s.setThread t (.head s.globalEpoch), [])
    | _ => none
  | .thread t => s.threadStep t

end EBRManager

/-! ### What the log has to say -/

/-- The participant has entered and has not left since. -/
def activeIn (log : List Event) (p : ℕ) : Bool :=
  log.foldl (fun b ev =>
    match ev with
    | .entered q => if q = p then true else b
    | .left q => if q = p then false else b
    | _ => b) false

/-- **Safety.**  Between the retirement of a block and its hand-over to the free list, every participant that was
active at the retirement has left. -/
def FreedAfterReaders (log : List Event) : Prop :=
  ∀ (before between after : List Event) (r : ℕ),
    log = before ++ .retired r :: (between ++ .freed r :: after) →
      ∀ p, activeIn before p = true → .left p ∈ between

/-- The steps of an advance that keep the grace period: the epoch does not run out, and the list that is drained is
neither that of the current epoch nor that of the one before. -/
def onTime (s : EBRManager) : Action → Bool
  | .thread t =>
    match s.threads t with
    | .scan c [] => decide (c + 1 < InactiveEpoch)
    | .drain c shard _ =>
      decide (shard < arenaRetiredFreelistShardCount → EBRManager.safeIdx c = (s.globalEpoch + 1) % 3)
    | _ => true
  | _ => true

end Sovereign.Sync

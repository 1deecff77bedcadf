import Sovereign.Sync.DigestPeel

/-!
# `Peel` and `PeelArena` on slices

The two functions have one body: a queue of candidate buckets with a head index and a compaction, and two
slices of listed keys.  `Peel` grows its slices on the heap; `PeelArena` cuts them from arena slabs with room
for as many elements as there are buckets, and an `append` beyond that moves the slice to the heap.

* `erase_peelTurn` — a turn on slices is a turn of `peelStep` on the candidates behind the head: the head
  index and the compaction only manage memory, and so do the slabs.  So both functions return what `peel`
  says (`peelSlices_eq`).
* On the difference of two sketches every bucket is queued at most once, when its second last key goes.
  `Slack` counts that, and the slices stay in their slabs (`Slack.turns`).
-/

namespace Sovereign.Sync

open Lib

/-- A slice: its elements, the room of the slab it was cut from, and whether it has left the slab. -/
structure GoSlice (α : Type) where
  items : List α
  slab : Option ℕ
  spilled : Bool

namespace GoSlice

variable {α : Type}

def empty (slab : Option ℕ) : GoSlice α := ⟨[], slab, false⟩

/-- `append`; beyond the room of the slab the elements are moved to the heap. -/
def append (s : GoSlice α) (x : α) : GoSlice α :=
  ⟨s.items ++ [x], s.slab, s.spilled || s.slab.any (· ≤ s.items.length)⟩

/-- `copy(s, s[head:])` and `s = s[:nn]`. -/
def compact (s : GoSlice α) (head : ℕ) : GoSlice α := { s with items := s.items.drop head }

def appendAll (s : GoSlice α) (xs : List α) : GoSlice α := xs.foldl append s

theorem items_appendAll (s : GoSlice α) (xs : List α) : (s.appendAll xs).items = s.items ++ xs := by
  induction xs generalizing s with
  | nil => exact (List.append_nil _).symm
  | cons x xs ih =>
    show ((s.append x).appendAll xs).items = _
    rw [ih, append, List.append_assoc]
    rfl

theorem appendAll_append (s : GoSlice α) (xs : List α) (x : α) :
    (s.appendAll xs).append x = s.appendAll (xs ++ [x]) := by
  rw [appendAll, appendAll, List.foldl_append]
  rfl

/-- The slice is in its slab of `n` elements. -/
def Fits (n : ℕ) (s : GoSlice α) : Prop := s.slab = some n ∧ s.spilled = false

theorem Fits.append {n : ℕ} {s : GoSlice α} (h : s.Fits n) (hlt : s.items.length < n) (x : α) :
    (s.append x).Fits n := by
  refine ⟨h.1, ?_⟩
  rw [GoSlice.append, h.1, h.2]
  exact (Bool.false_or _).trans (decide_eq_false (Nat.not_le.mpr hlt))

theorem Fits.appendAll {n : ℕ} {s : GoSlice α} (h : s.Fits n) {xs : List α}
    (hle : s.items.length + xs.length ≤ n) : (s.appendAll xs).Fits n := by
  induction xs generalizing s with
  | nil => exact h
  | cons x xs ih =>
    rw [List.length_cons] at hle
    refine ih (h.append (by omega) x) ?_
    rw [GoSlice.append, List.length_append, List.length_singleton]
    omega

end GoSlice

namespace IBLT

variable (R : Runtime)

/-- The variables of `Peel` and `PeelArena`. -/
structure PeelVars where
  pureQueue : GoSlice ℕ
  head : ℕ
  table : IBLT
  localHas : GoSlice UInt64
  remoteHas : GoSlice UInt64

/-- The loop over the targets of a key. -/
def unpeelInto (t : IBLT) (queue : GoSlice ℕ) (key : UInt64) (positive : Bool) : IBLT × GoSlice ℕ :=
  (t.getHashes R key).foldl
    (fun acc idx =>
      let t' := { acc.1 with
        buckets := acc.1.buckets.modify idx fun b =>
          if positive then b.take key (t.hashKey R key) else b.put key (t.hashKey R key) }
      (t', if t'.isPure R idx then acc.2.append idx else acc.2))
    (t, queue)

/-- The compaction at the end of a turn. -/
def compactQueue (s : PeelVars) : PeelVars :=
  if 16 ≤ s.head ∧ s.pureQueue.items.length ≤ s.head * 2 then
    { s with pureQueue := s.pureQueue.compact s.head, head := 0 }
  else s

/-- One turn of the loop, for a head below the length of the queue. -/
def peelTurn (s : PeelVars) : PeelVars :=
  let idx := s.pureQueue.items.getD s.head 0
  let s := { s with head := s.head + 1 }
  let b := s.table.bucket idx
  if !isPureCount b.count then s
  else if !s.table.isPure R idx then s
  else
    let positive : Bool := 0 < b.count
    let (t, queue) := s.table.unpeelInto R s.pureQueue b.keySum positive
    compactQueue
      { s with
        pureQueue := queue
        table := t
        localHas := if positive then s.localHas.append b.keySum else s.localHas
        remoteHas := if positive then s.remoteHas else s.remoteHas.append b.keySum }

def peelTurns (fuel : ℕ) (s : PeelVars) : Option PeelVars :=
  if s.head < s.pureQueue.items.length then
    match fuel with
    | 0 => none
    | fuel + 1 => peelTurns fuel (peelTurn R s)
  else some s

/-- The scan that fills the queue. -/
def initialVars (slab : Option ℕ) (t : IBLT) : PeelVars :=
  ⟨(List.range t.buckets.length).foldl (fun queue i => if t.isPure R i then queue.append i else queue)
    (.empty slab), 0, t, .empty slab, .empty slab⟩

/-- What is returned: the listed keys, whether the peel is incomplete, and the table that is left. -/
structure PeelOutcome where
  localHas : List UInt64
  remoteHas : List UInt64
  incomplete : Bool
  residual : IBLT
deriving DecidableEq

/-- What is returned from the last state. -/
def PeelVars.outcome (s : PeelVars) : PeelOutcome :=
  ⟨s.localHas.items, s.remoteHas.items, s.table.buckets.any (· ≠ 0), s.table⟩

/-- The body of the two functions. -/
def peelSlices (slab : Option ℕ) (fuel : ℕ) (t : IBLT) : Option PeelVars := peelTurns R fuel (initialVars R slab t)

def peelHeap (fuel : ℕ) (t : IBLT) : Option PeelVars := peelSlices R none fuel t

/-- `PeelArena`; where a slab cannot be allocated it falls back to `Peel`. -/
def peelArena (allocates : Bool) (fuel : ℕ) (t : IBLT) : Option PeelVars :=
  if allocates then peelSlices R (some t.buckets.length) fuel t else peelHeap R fuel t

section
variable {R}

/-! ### The slices hold what the list of candidates holds -/

/-- The candidates behind the head, and the listed keys. -/
def PeelVars.erase (s : PeelVars) : PeelState :=
  ⟨s.pureQueue.items.drop s.head, s.table, s.localHas.items, s.remoteHas.items⟩

/-- The inner loop works alike on every kind of queue. -/
theorem foldl_strike_map {Q : Type} (push : Q → ℕ → Q) (hold : List ℕ → Q)
    (hpush : ∀ queue idx, push (hold queue) idx = hold (enqueue queue idx)) (f : Bucket → Bucket) (idxs : List ℕ)
    (t : IBLT) (queue : List ℕ) :
    idxs.foldl (strike R push f) (t, hold queue) =
      ((idxs.foldl (strike R enqueue f) (t, queue)).1, hold (idxs.foldl (strike R enqueue f) (t, queue)).2) := by
  induction idxs generalizing t queue with
  | nil => rfl
  | cons idx idxs ih =>
    rw [List.foldl_cons, List.foldl_cons, strike, strike]
    dsimp only
    rw [← ih]
    congr 2
    split
    · exact hpush queue idx
    · rfl

/-- The buckets that become pure are appended to the queue. -/
theorem unpeelInto_eq (t : IBLT) (queue : GoSlice ℕ) (key : UInt64) (positive : Bool) :
    t.unpeelInto R queue key positive =
      ((t.unpeel R [] key positive).1, queue.appendAll (t.unpeel R [] key positive).2) :=
  foldl_strike_map GoSlice.append queue.appendAll queue.appendAll_append (stroke R t key positive) _ t []

theorem unpeel_append (t : IBLT) (queue : List ℕ) (key : UInt64) (positive : Bool) :
    t.unpeel R queue key positive =
      ((t.unpeel R [] key positive).1, queue ++ (t.unpeel R [] key positive).2) := by
  have hnil := foldl_strike_map (R := R) enqueue (queue ++ ·)
    (fun before idx => List.append_assoc queue before [idx]) (stroke R t key positive) (t.getHashes R key) t []
  rw [List.append_nil] at hnil
  exact hnil

theorem erase_compactQueue (s : PeelVars) : (compactQueue s).erase = s.erase := by
  rw [compactQueue]
  split
  · rw [PeelVars.erase, PeelVars.erase, GoSlice.compact, List.drop_zero]
  · rfl

variable {s : PeelVars}

theorem peelTurn_of_not_isPure (h : s.table.isPure R (s.pureQueue.items.getD s.head 0) = false) :
    peelTurn R s = { s with head := s.head + 1 } := by
  rw [peelTurn]
  simp only [h, Bool.not_false, if_true, ite_self]

theorem peelTurn_of_isPure {b : Bucket} (h : s.table.isPure R (s.pureQueue.items.getD s.head 0) = true)
    (hb : s.table.bucket (s.pureQueue.items.getD s.head 0) = b) :
    peelTurn R s = compactQueue
      ⟨s.pureQueue.appendAll (s.table.unpeel R [] b.keySum (0 < b.count)).2, s.head + 1,
        (s.table.unpeel R [] b.keySum (0 < b.count)).1,
        if 0 < b.count then s.localHas.append b.keySum else s.localHas,
        if 0 < b.count then s.remoteHas else s.remoteHas.append b.keySum⟩ := by
  have hcount : isPureCount b.count = true := by
    rw [isPure, decide_eq_true_iff, hb] at h
    exact h.1
  rw [peelTurn]
  simp only [h, hb, hcount, Bool.not_true, Bool.false_eq_true, if_false, unpeelInto_eq, decide_eq_true_eq]

/-- **A turn on slices is a turn on the candidates behind the head.** -/
theorem erase_peelTurn (h : s.head < s.pureQueue.items.length) : (peelTurn R s).erase = peelStep R s.erase := by
  set idx := s.pureQueue.items.getD s.head 0 with hidx
  have hqueue : s.erase.queue = idx :: s.pureQueue.items.drop (s.head + 1) := by
    rw [PeelVars.erase, List.drop_eq_getElem_cons h, hidx, List.getD_eq_getElem _ _ h]
  have htable : s.erase.table = s.table := rfl
  rw [peelStep, hqueue, htable]
  dsimp only
  cases hpure : s.table.isPure R idx with
  | false =>
    rw [peelTurn_of_not_isPure hpure]
    rfl
  | true =>
    set b := s.table.bucket idx with hb
    simp only [Bool.not_true, Bool.false_eq_true, if_false]
    rw [peelTurn_of_isPure hpure hb.symm, erase_compactQueue,
      unpeel_append s.table (s.pureQueue.items.drop (s.head + 1)),
      unpeel_append s.table (s.pureQueue.items.drop (s.head + 1)), PeelVars.erase]
    dsimp only
    rw [GoSlice.items_appendAll, List.drop_append_of_le_length h]
    by_cases hpos : 0 < b.count
    · rw [if_pos hpos, if_pos hpos, if_pos hpos, decide_eq_true hpos]
      rfl
    · rw [if_neg hpos, if_neg hpos, if_neg hpos, decide_eq_false hpos]
      rfl

theorem erase_queue_eq_nil_iff : s.erase.queue = [] ↔ ¬ s.head < s.pureQueue.items.length := by
  rw [PeelVars.erase, List.drop_eq_nil_iff, not_lt]

/-- **The loop on slices is the loop on candidates.** -/
theorem peelTurns_eq (fuel : ℕ) (s : PeelVars) :
    (peelTurns R fuel s).map (fun s' => (s'.table, s'.localHas.items, s'.remoteHas.items)) =
      ((peelStep R)^[fuel] s.erase).result := by
  induction fuel generalizing s with
  | zero =>
    rw [peelTurns, PeelState.result, Function.iterate_zero_apply]
    by_cases hmore : s.head < s.pureQueue.items.length
    · rw [if_pos hmore, if_neg fun hnil => erase_queue_eq_nil_iff.mp hnil hmore]
      rfl
    · rw [if_neg hmore, if_pos (erase_queue_eq_nil_iff.mpr hmore)]
      rfl
  | succ fuel ih =>
    rw [peelTurns]
    by_cases hmore : s.head < s.pureQueue.items.length
    · rw [if_pos hmore, Function.iterate_succ_apply, ← erase_peelTurn hmore]
      exact ih _
    · have hnil := erase_queue_eq_nil_iff.mpr hmore
      rw [if_neg hmore, iterate_peelStep_of_nil hnil, PeelState.result, if_pos hnil]
      rfl

theorem initialVars_pureQueue (slab : Option ℕ) (t : IBLT) :
    (initialVars R slab t).pureQueue = (GoSlice.empty slab).appendAll (peelStart R t).queue := by
  have hfold : ∀ (is : List ℕ) (queue : GoSlice ℕ),
      is.foldl (fun queue i => if t.isPure R i then queue.append i else queue) queue =
        queue.appendAll (is.filter fun i => t.isPure R i) := by
    intro is
    induction is with
    | nil => exact fun queue => rfl
    | cons i is ih =>
      intro queue
      rw [List.foldl_cons, ih, List.filter_cons]
      split
      · rfl
      · rfl
  exact hfold _ _

theorem erase_initialVars (slab : Option ℕ) (t : IBLT) : (initialVars R slab t).erase = peelStart R t := by
  rw [PeelVars.erase, initialVars_pureQueue, GoSlice.items_appendAll]
  rfl

/-- Wherever the slices are, the outcome is that of the loop on candidates. -/
theorem peelSlices_eq (slab : Option ℕ) (fuel : ℕ) (t : IBLT) :
    (peelSlices R slab fuel t).map PeelVars.outcome = (((peelStep R)^[fuel] (peelStart R t)).result).map
      fun out => ⟨out.2.1, out.2.2, out.1.buckets.any (· ≠ 0), out.1⟩ := by
  rw [← erase_initialVars slab, ← peelTurns_eq, Option.map_map]
  rfl

theorem peelArena_eq (allocates : Bool) (fuel : ℕ) (t : IBLT) :
    (peelArena R allocates fuel t).map PeelVars.outcome = (peelHeap R fuel t).map PeelVars.outcome := by
  rw [peelArena]
  split
  · rw [peelHeap, peelSlices_eq, peelSlices_eq]
  · rfl

/-! ### How often a bucket is queued -/

theorem foldl_strike_queue (f : Bucket → Bucket) {idxs : List ℕ} (hnd : idxs.Nodup) (t : IBLT) (queue : List ℕ) :
    (idxs.foldl (strike R enqueue f) (t, queue)).2 =
    queue ++ idxs.filter fun i =>
      ({ t with buckets := idxs.foldl (fun bs i => bs.modify i f) t.buckets } : IBLT).isPure R i := by
  induction idxs generalizing t queue with
  | nil => exact (List.append_nil _).symm
  | cons idx idxs ih =>
    obtain ⟨hnot, hnd⟩ := List.nodup_cons.mp hnd
    -- the writes that follow leave the bucket alone, so it is as pure now as at the end
    have hlast : ({ t with buckets := t.buckets.modify idx f } : IBLT).isPure R idx =
        ({ t with buckets := (idx :: idxs).foldl (fun bs i => bs.modify i f) t.buckets } : IBLT).isPure R idx := by
      have hshape : SameShape { t with buckets := t.buckets.modify idx f }
          { t with buckets := (idx :: idxs).foldl (fun bs i => bs.modify i f) t.buckets } :=
        ⟨(length_foldl_modify f idxs _).symm, rfl, rfl⟩
      exact hshape.isPure (getD_foldl_modify_of_notMem f 0 _ hnot).symm
    rw [List.foldl_cons, strike, ih hnd, List.filter_cons]
    dsimp only
    rw [hlast]
    split
    · exact List.append_assoc queue [idx] _
    · rfl

/-- The buckets a turn queues are those of the key that are pure at its end. -/
theorem unpeel_queue {t : IBLT} {key : UInt64} (hnd : (t.getHashes R key).Nodup) (queue : List ℕ) (positive : Bool) :
    (t.unpeel R queue key positive).2 =
      queue ++ (t.getHashes R key).filter fun i => (t.unpeel R queue key positive).1.isPure R i := by
  rw [unpeel_table]
  exact foldl_strike_queue _ hnd t queue

section
variable {n k : ℕ} {hk : 0 < k} {seed : Seed} {A₀ B₀ A B : List UInt64} {s : PeelState}

variable (R) in
/-- The number of keys in bucket `i`. -/
def occupancy (n k : ℕ) (seed : Seed) (A B : List UInt64) (i : ℕ) : ℕ := (occupants R n k seed (A ++ B) i).length

variable (R) in
/-- The buckets with two or more keys. -/
def crowded (n k : ℕ) (seed : Seed) (A B : List UInt64) : Finset ℕ :=
  (Finset.range n).filter fun i => 2 ≤ occupancy R n k seed A B i

theorem occupancy_eq (A B : List UInt64) (i : ℕ) : occupancy R n k seed A B i =
    A.countP (fun key => i ∈ (blank n k seed).getHashes R key) +
      B.countP fun key => i ∈ (blank n k seed).getHashes R key := by
  rw [occupancy, occupants, List.filter_append, List.length_append, ← List.countP_eq_length_filter,
    ← List.countP_eq_length_filter]

/-- A key that goes leaves one less in each of its buckets. -/
theorem occupancy_erase {key : UInt64} {positive : Bool} (hkey : key ∈ (if positive then A else B)) (i : ℕ) :
    occupancy R n k seed A B i =
      occupancy R n k seed (if positive then A.erase key else A) (if positive then B else B.erase key) i +
        if i ∈ (blank n k seed).getHashes R key then 1 else 0 := by
  have hcount : ∀ {X : List UInt64}, key ∈ X → X.countP (fun key => i ∈ (blank n k seed).getHashes R key) =
      (X.erase key).countP (fun key => i ∈ (blank n k seed).getHashes R key) +
        if i ∈ (blank n k seed).getHashes R key then 1 else 0 := by
    intro X hX
    rw [(List.perm_cons_erase hX).countP_eq, List.countP_cons]
    simp only [decide_eq_true_eq]
  cases positive with
  | true =>
    rw [if_pos rfl] at hkey
    rw [if_pos rfl, if_pos rfl, occupancy_eq, occupancy_eq, hcount hkey]
    omega
  | false =>
    rw [if_neg Bool.false_ne_true] at hkey
    rw [if_neg Bool.false_ne_true, if_neg Bool.false_ne_true, occupancy_eq, occupancy_eq, hcount hkey]
    omega

/-- **A pure bucket has one key.** -/
theorem Residual.occupancy_of_isPure (hpure : (sketchAt R n hk seed).NoFalsePure A₀ B₀)
    (h : Residual R hk n seed A₀ B₀ s A B) {i : ℕ} (hi : s.table.isPure R i = true) :
    occupancy R n k seed A B i = 1 := by
  have hlt := h.lt_of_isPure hi
  have hacc : (sketchAt R n hk seed).accepts (s.table.bucket i) := (isPure_iff_accepts h.shape i).mp hi
  rw [h.residue i hlt] at hacc
  obtain ⟨x, hx, huniq⟩ := hpure A B h.part.nodup_left h.part.nodup_right h.part.left h.part.right i hacc
  have hnodup : (occupants R n k seed (A ++ B) i).Nodup := by
    refine List.Nodup.filter _ (List.nodup_append.mpr ⟨h.part.nodup_left, h.part.nodup_right, fun y hy z hz heq => ?_⟩)
    exact h.part.disjoint (h.part.left hy) (h.part.right (heq ▸ hz))
  have hperm : (occupants R n k seed (A ++ B) i).Perm [x] := by
    refine (List.perm_ext_iff_of_nodup hnodup (List.nodup_singleton x)).mpr fun y => ?_
    rw [mem_occupants, List.mem_singleton]
    exact ⟨huniq y, fun hy => hy ▸ hx⟩
  exact hperm.length_eq

variable {t : IBLT} {popped : ℕ}

/-- At the start a bucket is queued, or has two keys or more, or none. -/
theorem Residual.slack_start (hpure : (sketchAt R n hk seed).NoFalsePure A₀ B₀)
    (h : Residual R hk n seed A₀ B₀ (peelStart R t) A B) :
    (peelStart R t).queue.length + (crowded R n k seed A B).card ≤ n := by
  have hlen : t.buckets.length = n := h.shape.length_blank
  have hqueue : (peelStart R t).queue = (List.range n).filter fun i => t.isPure R i := by
    rw [peelStart, hlen]
  have hnodup : (peelStart R t).queue.Nodup := by
    rw [hqueue]
    exact List.nodup_range.filter _
  have hdisjoint : Disjoint (peelStart R t).queue.toFinset (crowded R n k seed A B) := by
    rw [Finset.disjoint_left]
    intro i hi hcrowd
    rw [List.mem_toFinset, hqueue] at hi
    have hone := h.occupancy_of_isPure hpure (List.mem_filter.mp hi).2
    have hge := (Finset.mem_filter.mp hcrowd).2
    rw [hone] at hge
    omega
  have hsub : (peelStart R t).queue.toFinset ∪ crowded R n k seed A B ⊆ Finset.range n := by
    intro i hi
    rcases Finset.mem_union.mp hi with hi | hi
    · rw [List.mem_toFinset, hqueue] at hi
      exact Finset.mem_range.mpr (List.mem_range.mp (List.mem_of_mem_filter hi))
    · exact (Finset.mem_filter.mp hi).1
  have hcard := Finset.card_le_card hsub
  rwa [Finset.card_union_of_disjoint hdisjoint, List.toFinset_card_of_nodup hnodup, Finset.card_range] at hcard

/-! ### The slices stay in their slabs -/

variable (R hk) in
/-- After `popped` turns: the turns, the candidates behind the head and the buckets with two keys or more are no more
than the buckets, and the slices are in their slabs. -/
structure Slack (n : ℕ) (seed : Seed) (A₀ B₀ : List UInt64) (popped : ℕ) (s : PeelVars) (A B : List UInt64) :
    Prop where
  residual : Residual R hk n seed A₀ B₀ s.erase A B
  budget : popped + s.erase.queue.length + (crowded R n k seed A B).card ≤ n
  head_le : s.head ≤ popped
  listed : s.localHas.items.length + s.remoteHas.items.length ≤ popped
  pureQueue : s.pureQueue.Fits n
  localHas : s.localHas.Fits n
  remoteHas : s.remoteHas.Fits n

theorem Slack.compact {s : PeelVars} (h : Slack R hk n seed A₀ B₀ popped s A B) :
    Slack R hk n seed A₀ B₀ popped (compactQueue s) A B := by
  have herase := erase_compactQueue s
  rw [compactQueue] at herase ⊢
  split
  · next hfull =>
    rw [if_pos hfull] at herase
    exact ⟨herase ▸ h.residual, herase ▸ h.budget, Nat.zero_le _, h.listed, h.pureQueue, h.localHas, h.remoteHas⟩
  · exact h

theorem slack_start (hpure : (sketchAt R n hk seed).NoFalsePure A₀ B₀)
    (h : Residual R hk n seed A₀ B₀ (peelStart R t) A B) :
    Slack R hk n seed A₀ B₀ 0 (initialVars R (some n) t) A B := by
  have hstart := h.slack_start hpure
  have hempty : ∀ {α : Type}, (GoSlice.empty (some n) : GoSlice α).Fits n := ⟨rfl, rfl⟩
  refine ⟨(erase_initialVars (R := R) (some n) t).symm ▸ h, ?_, Nat.le_refl 0, Nat.le_refl 0, ?_, hempty, hempty⟩
  · rw [erase_initialVars, Nat.zero_add]
    exact hstart
  · rw [initialVars_pureQueue]
    refine hempty.appendAll ?_
    show 0 + _ ≤ n
    omega

/-! ### Whole runs -/

section
variable (hpure : (sketchAt R n hk seed).NoFalsePure A₀ B₀) (hdistinct : DistinctTargets R n k seed (A₀ ++ B₀))
  (hn : 0 < n) (hmax : n < 2 ^ 63)

include hpure hdistinct hn hmax

/-- **A turn queues no more buckets than it empties to one key.** -/
theorem Residual.slack_step
    (h : Residual R hk n seed A₀ B₀ s A B) {idx : ℕ} {queue : List ℕ} (hqueue : s.queue = idx :: queue) :
    ∃ A' B', Residual R hk n seed A₀ B₀ (peelStep R s) A' B' ∧
      (peelStep R s).queue.length + (crowded R n k seed A' B').card ≤
        queue.length + (crowded R n k seed A B).card := by
  cases hidx : s.table.isPure R idx with
  | false =>
    have hstep : peelStep R s = { s with queue := queue } := by
      rw [peelStep, hqueue]
      dsimp only
      rw [hidx]
      rfl
    rw [hstep]
    exact ⟨A, B, ⟨h.shape, h.residue, h.part, h.localHas, h.remoteHas⟩, le_refl _⟩
  | true =>
    obtain ⟨key, positive, -, hmem, hq, htable, hnext⟩ := h.step hpure hdistinct hqueue hidx
    refine ⟨_, _, hnext, ?_⟩
    set A' := if positive then A.erase key else A with hA'
    set B' := if positive then B else B.erase key with hB'
    have hkey : ((blank n k seed).getHashes R key).Nodup := by
      refine hdistinct key ?_
      cases positive with
      | true => exact List.mem_append_left _ (h.part.left hmem)
      | false => exact List.mem_append_right _ (h.part.right hmem)
    have hnd : (s.table.getHashes R key).Nodup := by rwa [h.shape.getHashes]
    rw [hq, unpeel_queue hnd, List.length_append, ← htable]
    set pushed := (s.table.getHashes R key).filter fun i => (peelStep R s).table.isPure R i with hpushed
    have hocc : ∀ i, occupancy R n k seed A B i = occupancy R n k seed A' B' i +
        if i ∈ (blank n k seed).getHashes R key then 1 else 0 := fun i => occupancy_erase hmem i
    -- a bucket that is queued had two keys and has one
    have htwo : ∀ i ∈ pushed, i < n ∧ occupancy R n k seed A B i = 2 ∧ occupancy R n k seed A' B' i = 1 := by
      intro i hi
      obtain ⟨htarget, hipure⟩ := List.mem_filter.mp hi
      rw [h.shape.getHashes] at htarget
      have hone := hnext.occupancy_of_isPure hpure hipure
      have hboth := hocc i
      rw [if_pos htarget, hone] at hboth
      exact ⟨lt_of_mem_blank hn hmax htarget, hboth, hone⟩
    have hdisjoint : Disjoint pushed.toFinset (crowded R n k seed A' B') := by
      rw [Finset.disjoint_left]
      intro i hi hcrowd
      have hge := (Finset.mem_filter.mp hcrowd).2
      rw [(htwo i (List.mem_toFinset.mp hi)).2.2] at hge
      omega
    have hsub : pushed.toFinset ∪ crowded R n k seed A' B' ⊆ crowded R n k seed A B := by
      intro i hi
      rcases Finset.mem_union.mp hi with hi | hi
      · obtain ⟨hlt, hold, -⟩ := htwo i (List.mem_toFinset.mp hi)
        exact Finset.mem_filter.mpr ⟨Finset.mem_range.mpr hlt, hold.ge⟩
      · obtain ⟨hrange, hge⟩ := Finset.mem_filter.mp hi
        refine Finset.mem_filter.mpr ⟨hrange, ?_⟩
        rw [hocc i]
        omega
    have hpnd : pushed.Nodup := hnd.filter _
    have hcard := Finset.card_le_card hsub
    rw [Finset.card_union_of_disjoint hdisjoint, List.toFinset_card_of_nodup hpnd] at hcard
    omega

/-- **A turn stays within the slabs.** -/
theorem Slack.turn {s : PeelVars}
    (h : Slack R hk n seed A₀ B₀ popped s A B) (hmore : s.head < s.pureQueue.items.length) :
    ∃ A' B', Slack R hk n seed A₀ B₀ (popped + 1) (peelTurn R s) A' B' := by
  set idx := s.pureQueue.items.getD s.head 0 with hidx
  have hqueue : s.erase.queue = idx :: s.pureQueue.items.drop (s.head + 1) := by
    rw [PeelVars.erase, List.drop_eq_getElem_cons hmore, hidx, List.getD_eq_getElem _ _ hmore]
  have hbudget := h.budget
  rw [hqueue, List.length_cons] at hbudget
  obtain ⟨A', B', hnext, hless⟩ := h.residual.slack_step hpure hdistinct hn hmax hqueue
  have herase := erase_peelTurn (R := R) hmore
  rw [← herase] at hnext hless
  have hlisted := h.listed
  have hhead := h.head_le
  refine ⟨A', B', ?_⟩
  cases hp : s.table.isPure R idx with
  | false =>
    rw [peelTurn_of_not_isPure hp] at hnext hless ⊢
    exact ⟨hnext, by omega, Nat.succ_le_succ hhead, by dsimp only; omega, h.pureQueue, h.localHas, h.remoteHas⟩
  | true =>
    set b := s.table.bucket idx with hb
    rw [peelTurn_of_isPure hp hb.symm] at hnext hless ⊢
    rw [erase_compactQueue] at hnext hless
    refine Slack.compact ⟨hnext, by omega, Nat.succ_le_succ hhead, ?_, h.pureQueue.appendAll ?_, ?_, ?_⟩
    · dsimp only
      split
      · rw [GoSlice.append, List.length_append, List.length_singleton]
        omega
      · rw [GoSlice.append, List.length_append, List.length_singleton]
        omega
    · rw [PeelVars.erase, GoSlice.items_appendAll, List.length_drop, List.length_append] at hless
      dsimp only at hless
      omega
    · dsimp only
      split
      · exact h.localHas.append (by omega) _
      · exact h.localHas
    · dsimp only
      split
      · exact h.remoteHas
      · exact h.remoteHas.append (by omega) _

/-- **The whole loop stays within the slabs.** -/
theorem Slack.turns
    {s s' : PeelVars} (h : Slack R hk n seed A₀ B₀ popped s A B) {fuel : ℕ} (hrun : peelTurns R fuel s = some s') :
    ∃ popped' A' B', Slack R hk n seed A₀ B₀ popped' s' A' B' := by
  induction fuel generalizing s popped A B with
  | zero =>
    rw [peelTurns] at hrun
    split at hrun
    · cases hrun
    · cases hrun
      exact ⟨popped, A, B, h⟩
  | succ fuel ih =>
    rw [peelTurns] at hrun
    split at hrun
    · next hmore =>
      obtain ⟨A', B', hturn⟩ := h.turn hpure hdistinct hn hmax hmore
      exact ih hturn hrun
    · cases hrun
      exact ⟨popped, A, B, h⟩

/-- A peel lists at most as many keys as there are buckets. -/
theorem Residual.listed_le
    (h : Residual R hk n seed A₀ B₀ (peelStart R t) A B) {fuel : ℕ} {localHas remoteHas : List UInt64}
    {incomplete : Bool} (hpeel : t.peel R fuel = some (localHas, remoteHas, incomplete)) :
    localHas.length + remoteHas.length ≤ n := by
  obtain ⟨hnil, rfl, rfl, -⟩ := peel_eq_some_iff.mp hpeel
  have hturns := peelTurns_eq (R := R) fuel (initialVars R (some n) t)
  rw [erase_initialVars, PeelState.result, if_pos hnil, Option.map_eq_some_iff] at hturns
  obtain ⟨s, hs, hout⟩ := hturns
  obtain ⟨popped, A', B', hend⟩ := (IBLT.slack_start hpure h).turns hpure hdistinct hn hmax hs
  have hlisted := hend.listed
  have hbudget := hend.budget
  rw [Prod.mk.injEq, Prod.mk.injEq] at hout
  rw [← hout.2.1, ← hout.2.2]
  omega

end

end

/-! ### `PeelArena` is `Peel` -/

end

/-- **`PeelArena` is `Peel`, and its slabs suffice.**  On every table and whether its slabs could be allocated or not,
it returns what `Peel` returns: the same status, the same keys in the same order, and it leaves the same buckets.  On
the difference of two tables of inserted keys it returns, with at most as many keys as there are buckets, and none of
its slices outgrows its slab. -/
theorem peelArena_is_peel (R : Runtime) :
    (∀ (allocates : Bool) (fuel : ℕ) (t : IBLT) (out : PeelOutcome),
      (peelHeap R fuel t).map PeelVars.outcome = some out →
        (peelArena R allocates fuel t).map PeelVars.outcome = some out) ∧
    ∀ (n k : ℕ) (seed : Seed) (empty : IBLT), newIBLTWithSeed n k seed = some empty → 0 < n → n < 2 ^ 63 →
      ∀ A B : List UInt64, A.Nodup → B.Nodup → (∀ key ∈ A ++ B, (empty.getHashes R key).Nodup) →
        NoFalsePureBucket R n k seed A B →
          ∀ diff, (A.foldl (insert R) empty).subtract (B.foldl (insert R) empty) = some diff →
            (∃ fuel s, peelArena R true fuel diff = some s) ∧
            ∀ fuel s, peelArena R true fuel diff = some s →
              s.localHas.items.length + s.remoteHas.items.length ≤ diff.buckets.length ∧
                s.pureQueue.spilled = false ∧ s.localHas.spilled = false ∧ s.remoteHas.spilled = false := by
  refine ⟨fun allocates fuel t out hout => (peelArena_eq allocates fuel t).trans hout,
    fun n k seed empty hempty hn hmax A B hA hB hdistinct hfalse diff hdiff => ?_⟩
  rw [newIBLTWithSeed] at hempty
  split_ifs at hempty with hkbad
  rw [not_or, not_lt] at hkbad
  have hk : 0 < k := Nat.pos_of_ne_zero hkbad.1
  obtain rfl : blank n k seed = empty := Option.some.inj hempty
  have hstart : Residual R hk n seed _ _ (peelStart R diff) _ _ := residual_start hA hB hdistinct hdiff
  have hpure : (sketchAt R n hk seed).NoFalsePure _ _ := hfalse.noFalsePure hdistinct hn hmax
  have hdistinct' := distinctTargets_filter hdistinct
  have hlen : diff.buckets.length = n := hstart.shape.length_blank
  have harena : ∀ fuel, peelArena R true fuel diff = peelTurns R fuel (initialVars R (some n) diff) := by
    intro fuel
    rw [peelArena, if_pos rfl, hlen]
    rfl
  constructor
  · obtain ⟨fuel, hnil⟩ := hstart.ends hpure hdistinct'
    have hturns := peelTurns_eq (R := R) fuel (initialVars R (some n) diff)
    rw [erase_initialVars, PeelState.result, if_pos hnil, Option.map_eq_some_iff] at hturns
    obtain ⟨s, hs, -⟩ := hturns
    exact ⟨fuel, s, (harena fuel).trans hs⟩
  · intro fuel s hs
    rw [harena] at hs
    obtain ⟨popped, A', B', hend⟩ := (slack_start hpure hstart).turns hpure hdistinct' hn hmax hs
    refine ⟨?_, hend.pureQueue.2, hend.localHas.2, hend.remoteHas.2⟩
    have hlisted := hend.listed
    have hbudget := hend.budget
    rw [hlen]
    omega

theorem peelArena_is_peel_on_two_keys :
    ∃ diff, (sketchOf Runtime.sample 1024 4 7 [5]).subtract (sketchOf Runtime.sample 1024 4 7 [9]) = some diff ∧
      ∃ fuel s, peelArena Runtime.sample true fuel diff = some s ∧
        s.localHas.items.length + s.remoteHas.items.length ≤ diff.buckets.length ∧ s.pureQueue.spilled = false := by
  obtain ⟨diff, hdiff, -⟩ := subtract_sketchOf (R := Runtime.sample) 1024 4 7 [5] [9]
  obtain ⟨⟨fuel, s, hs⟩, hfits⟩ := (peelArena_is_peel Runtime.sample).2 1024 4 7 (blank 1024 4 7) rfl (by decide)
    (by decide) [5] [9] (by decide) (by decide) (fun key _ => (getHashes_digestTable (R := Runtime.sample) 7 key).1)
    (checksumSound_singletons (R := Runtime.sample) 7 5 9) diff hdiff
  obtain ⟨hlen, hqueue, -⟩ := hfits fuel s hs
  exact ⟨diff, hdiff, fuel, s, hs, hlen, hqueue⟩

end IBLT

end Sovereign.Sync

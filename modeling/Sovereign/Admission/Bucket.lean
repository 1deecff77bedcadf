import Sovereign.Lib.Run
import Sovereign.Sync.Entry

/-!
# The rate gate

`pkg/admission/ewma.go`: a budget for each peer key.  A frame is charged by how far its counter
advances the peer's high-water mark; a frame that does not advance it is free, and one that would use
up the budget is dropped.

Nothing refills a budget.  So what is left and the high-water mark always add up to the initial
budget (`PeerEWMA.Funded`), and the verdict is a function of the counter alone: a frame is dropped if
and only if its counter is at least the initial budget, whatever was received before
(`PeerBucket.Funded.accept_drop_iff`).

The sixteen locked shards of the source are one map here; the EWMA, which is recorded and
decides nothing, is computed by a parameter on float64 bits.
-/

namespace Sovereign.Admission

open Lib Sync

abbrev PeerBucketKey := FixedBytes 32

def initialBudget : UInt64 := 1048576

inductive FrameDecision where
  | keep
  | drop
deriving DecidableEq

structure PeerEWMA where
  rate : UInt64
  budget : UInt64
  lastCounter : UInt64
deriving DecidableEq

/-- A peer seen for the first time. -/
def PeerEWMA.new : PeerEWMA := ⟨0, initialBudget, 0⟩

abbrev PeerBucket := PeerBucketKey → Option PeerEWMA

def PeerBucket.new : PeerBucket := fun _ => none

variable (ewma : UInt64 → UInt64 → UInt64) {b : PeerBucket}

/-- The part of `Accept` under the lock. -/
def PeerEWMA.accept (peer : PeerEWMA) (counter : UInt64) : PeerEWMA × FrameDecision :=
  let delta := if peer.lastCounter < counter then counter - peer.lastCounter else 0
  if delta = 0 then (peer, .keep)
  else
    let peer := { peer with rate := ewma peer.rate delta }
    if peer.budget ≤ delta then (peer, .drop)
    else ({ peer with budget := peer.budget - delta, lastCounter := counter }, .keep)

/-- The entry of a key, made on first use. -/
def PeerBucket.peer (b : PeerBucket) (k : PeerBucketKey) : PeerEWMA := (b k).getD .new

/-- `Accept` on a key of the right length. -/
def PeerBucket.acceptKey (b : PeerBucket) (k : PeerBucketKey) (counter : UInt64) :
    PeerBucket × FrameDecision :=
  let (peer, decision) := (b.peer k).accept ewma counter
  (Function.update b k (some peer), decision)

def PeerBucket.accept (b : PeerBucket) (pub : Bytes) (counter : UInt64) : PeerBucket × FrameDecision :=
  if h : pub.length = 32 then b.acceptKey ewma ⟨pub, h⟩ counter else (b, .drop)

def PeerBucket.budget (b : PeerBucket) (pub : Bytes) : UInt64 :=
  if h : pub.length = 32 then ((b ⟨pub, h⟩).map PeerEWMA.budget).getD 0 else 0

/-! ### What the gate decides -/

/-- What is left and what was used are the initial budget, and something is left. -/
structure PeerEWMA.Funded (peer : PeerEWMA) : Prop where
  total : peer.budget.toNat + peer.lastCounter.toNat = initialBudget.toNat
  left : 0 < peer.budget.toNat

theorem PeerEWMA.funded_new : PeerEWMA.new.Funded := ⟨by decide, by decide⟩

variable {ewma}

/-- **One charge**: the invariant stays, and the verdict depends on the counter alone. -/
theorem PeerEWMA.Funded.accept {peer : PeerEWMA} (h : peer.Funded) (counter : UInt64) :
    (peer.accept ewma counter).1.Funded ∧
      ((peer.accept ewma counter).2 = .drop ↔ initialBudget ≤ counter) := by
  obtain ⟨htotal, hleft⟩ := h
  have hinit : initialBudget.toNat = 1048576 := by decide
  rw [hinit] at htotal
  rw [PeerEWMA.accept, UInt64.le_iff_toNat_le, hinit]
  by_cases hlt : peer.lastCounter < counter
  · have hnat : peer.lastCounter.toNat < counter.toNat := UInt64.lt_iff_toNat_lt.mp hlt
    have hsub : (counter - peer.lastCounter).toNat = counter.toNat - peer.lastCounter.toNat :=
      UInt64.toNat_sub_of_le _ _ (UInt64.le_of_lt hlt)
    have hne : counter - peer.lastCounter ≠ 0 := by
      intro h0
      rw [h0] at hsub
      simp at hsub
      omega
    simp only [if_pos hlt, if_neg hne]
    by_cases hle : peer.budget ≤ counter - peer.lastCounter
    · rw [if_pos hle]
      rw [UInt64.le_iff_toNat_le, hsub] at hle
      exact ⟨⟨by rw [hinit]; exact htotal, hleft⟩, iff_of_true rfl (by omega)⟩
    · rw [if_neg hle]
      rw [UInt64.not_le] at hle
      have hbud : (peer.budget - (counter - peer.lastCounter)).toNat
          = peer.budget.toNat - (counter.toNat - peer.lastCounter.toNat) := by
        rw [UInt64.toNat_sub_of_le _ _ (UInt64.le_of_lt hle), hsub]
      rw [UInt64.lt_iff_toNat_lt, hsub] at hle
      refine ⟨⟨?_, ?_⟩, iff_of_false (by simp) (by omega)⟩
      · simp only [hbud, hinit]
        omega
      · simp only [hbud]
        omega
  · rw [UInt64.not_lt, UInt64.le_iff_toNat_le] at hlt
    have hnot : ¬ peer.lastCounter < counter := by
      rw [UInt64.lt_iff_toNat_lt]
      omega
    simp only [if_neg hnot, if_true]
    exact ⟨⟨by rw [hinit]; exact htotal, hleft⟩, iff_of_false (by simp) (by omega)⟩

def PeerBucket.Funded (b : PeerBucket) : Prop := ∀ k, (b.peer k).Funded

theorem PeerBucket.funded_new : PeerBucket.new.Funded := fun _ => PeerEWMA.funded_new

theorem PeerBucket.Funded.acceptKey (h : b.Funded) (k : PeerBucketKey)
    (counter : UInt64) : (b.acceptKey ewma k counter).1.Funded := by
  intro k'
  by_cases hk : k' = k
  · subst hk
    simp only [PeerBucket.acceptKey, PeerBucket.peer, Function.update_self, Option.getD_some]
    exact ((h k').accept counter).1
  · simp only [PeerBucket.acceptKey, PeerBucket.peer, Function.update_of_ne hk]
    exact h k'

theorem PeerBucket.Funded.accept (h : b.Funded) (pub : Bytes) (counter : UInt64) :
    (b.accept ewma pub counter).1.Funded := by
  rw [PeerBucket.accept]
  split
  · exact h.acceptKey _ counter
  · exact h

variable (ewma) in
/-- **The verdict of the gate** on a key of 32 bytes: the counter against the initial budget. -/
theorem PeerBucket.Funded.accept_drop_iff (h : b.Funded) {pub : Bytes}
    (hpub : pub.length = 32) (counter : UInt64) :
    (b.accept ewma pub counter).2 = .drop ↔ initialBudget ≤ counter := by
  rw [PeerBucket.accept, dif_pos hpub]
  exact ((h ⟨pub, hpub⟩).accept counter).2

/-! ### Histories -/

variable (ewma) in
/-- Calls of `Accept` one after the other, with their decisions. -/
def PeerBucket.acceptAll (b : PeerBucket) : List (Bytes × UInt64) → PeerBucket × List FrameDecision
  | [] => (b, [])
  | (pub, counter) :: calls =>
    let (b, decision) := b.accept ewma pub counter
    let (b, decisions) := b.acceptAll calls
    (b, decision :: decisions)

variable (ewma) in
/-- **A whole history**: the budgets stay funded, and every call on a key of 32 bytes is decided by its
own counter. -/
theorem PeerBucket.Funded.acceptAll (h : b.Funded) (calls : List (Bytes × UInt64)) :
    (b.acceptAll ewma calls).1.Funded ∧
      List.Forall₂ (fun call decision => call.1.length = 32 →
        (decision = FrameDecision.drop ↔ initialBudget ≤ call.2)) calls (b.acceptAll ewma calls).2 := by
  induction calls generalizing b with
  | nil => exact ⟨h, .nil⟩
  | cons call calls ih =>
    obtain ⟨pub, counter⟩ := call
    obtain ⟨hfunded, hdecisions⟩ := ih (h.accept pub counter)
    exact ⟨hfunded, .cons (fun hpub => h.accept_drop_iff ewma hpub counter) hdecisions⟩

end Sovereign.Admission

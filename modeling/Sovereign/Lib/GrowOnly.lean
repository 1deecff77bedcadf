import Mathlib

/-!
# Grow-only replicated state

A replica that only ever adds items is determined by the set of items it holds.  `GrowOnly` is the
interface of such a state: `holds` reads the set, `join` adds the items of a delta, and the law says
that joining is union as long as no two items in sight share a key (`Set.InjOn`); items with a
shared key are the business of the implementation and outside of this theory.

The one result that matters is `holds_joinAll`: after any list of deltas drawn from a
universe `U` of consistently keyed items, the state holds its first items and those of the deltas.
Order, grouping and repetition of the deltas do not occur in the conclusion, which is all that
convergence needs (`holds_joinAll_congr`).
-/

namespace Sovereign.Lib

/-- A state of type `σ` that grows by joining deltas of type `δ`; both carry items of type `α`. -/
structure GrowOnly (σ δ α κ : Type*) where
  /-- The key that must determine an item. -/
  key : α → κ
  /-- The representation invariant of states. -/
  Ok : σ → Prop
  /-- The items of a state. -/
  holds : σ → Set α
  /-- The items of a delta. -/
  carries : δ → Set α
  join : σ → δ → σ
  ok_join : ∀ s d, Ok s → Ok (join s d)
  holds_join : ∀ s d, Ok s → Set.InjOn key (holds s ∪ carries d) →
    holds (join s d) = holds s ∪ carries d

namespace GrowOnly

variable {σ δ α κ : Type*} (G : GrowOnly σ δ α κ)

/-- Join a list of deltas, first to last. -/
def joinAll (s : σ) (ds : List δ) : σ := ds.foldl G.join s

/-- The items carried by some delta of a list. -/
def carriesAll (ds : List δ) : Set α := {x | ∃ d ∈ ds, x ∈ G.carries d}

theorem ok_joinAll {s : σ} (hs : G.Ok s) (ds : List δ) : G.Ok (G.joinAll s ds) := by
  induction ds generalizing s with
  | nil => exact hs
  | cons d ds ih => exact ih (G.ok_join s d hs)

theorem carriesAll_cons (d : δ) (ds : List δ) :
    G.carriesAll (d :: ds) = G.carries d ∪ G.carriesAll ds := by
  ext x
  simp [carriesAll]

variable {G} {U : Set α}

/-- A run of joins holds the union of what it started with and what the deltas carry. -/
theorem holds_joinAll (hU : Set.InjOn G.key U) {s : σ} (hs : G.Ok s) (hsU : G.holds s ⊆ U)
    {ds : List δ} (hds : G.carriesAll ds ⊆ U) :
    G.holds (G.joinAll s ds) = G.holds s ∪ G.carriesAll ds := by
  induction ds generalizing s with
  | nil => simp [joinAll, carriesAll]
  | cons d ds ih =>
    rw [carriesAll_cons, Set.union_subset_iff] at hds
    have hone : G.holds (G.join s d) = G.holds s ∪ G.carries d :=
      G.holds_join s d hs (hU.mono (Set.union_subset hsU hds.1))
    have hrest := ih (G.ok_join s d hs) (hone ▸ Set.union_subset hsU hds.1) hds.2
    rw [carriesAll_cons, ← Set.union_assoc, ← hone]
    exact hrest

/-- What a run of joins holds depends on the items of its deltas only. -/
theorem holds_joinAll_congr (hU : Set.InjOn G.key U) {s t : σ} (hs : G.Ok s) (ht : G.Ok t)
    (hsU : G.holds s ⊆ U) (hst : G.holds s = G.holds t) {ds es : List δ}
    (hds : G.carriesAll ds ⊆ U) (heq : G.carriesAll ds = G.carriesAll es) :
    G.holds (G.joinAll s ds) = G.holds (G.joinAll t es) := by
  rw [holds_joinAll hU hs hsU hds, holds_joinAll hU ht (hst ▸ hsU) (heq ▸ hds), hst, heq]

end GrowOnly

end Sovereign.Lib

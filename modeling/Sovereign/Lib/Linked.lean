import Sovereign.Lib.Grouping

/-!
# Chains of successors

A singly linked list in memory is a function from nodes to successors.  `Linked next l` says that `l` is
the list of nodes one meets from its first one on; there is at most one such list (`Linked.unique`).

`insertAfter p x` is what a swap of `p`'s successor does to the list: `Linked.insertAfter` for the chain,
and `weaklyAscending_insertAfter`, `not_weaklyAscending_insertAfter` for its order.  The second one
needs no other insertions to be right: what is out of order stays so in every longer list
(`WeaklyAscending.of_sublist`).
-/

namespace Sovereign.Lib

section
variable {α : Type*}

/-- Each node's successor is the next node of the list; the last one has none. -/
def Linked (next : α → Option α) : List α → Prop
  | [] => True
  | x :: xs => next x = xs.head? ∧ Linked next xs

variable {next : α → Option α} {l before : List α} {p x y : α}

theorem Linked.unique {l' : List α} (h : Linked next (x :: l)) (h' : Linked next (x :: l')) : l = l' := by
  induction l generalizing x l' with
  | nil =>
    cases l' with
    | nil => rfl
    | cons y ys => cases h.1.symm.trans h'.1
  | cons y ys ih =>
    cases l' with
    | nil => cases h.1.symm.trans h'.1
    | cons z zs =>
      obtain rfl : y = z := Option.some.inj (h.1.symm.trans h'.1)
      rw [ih h.2 h'.2]

theorem Linked.congr {next' : α → Option α} (h : Linked next l)
    (heq : ∀ x ∈ l, next' x = next x) : Linked next' l := by
  induction l with
  | nil => trivial
  | cons x xs ih =>
    exact ⟨(heq x List.mem_cons_self).trans h.1, ih h.2 fun y hy => heq y (List.mem_cons_of_mem _ hy)⟩

theorem Linked.mem (h : Linked next l) (hx : x ∈ l) (hy : next x = some y) : y ∈ l := by
  induction l with
  | nil => cases hx
  | cons z zs ih =>
    rcases List.mem_cons.mp hx with rfl | hx
    · exact List.mem_cons_of_mem _ (List.mem_of_head? (h.1.symm.trans hy))
    · exact List.mem_cons_of_mem _ (ih h.2 hx)

/-- In a chain cut before one of its nodes the successor heads the rest. -/
theorem Linked.succ {after : List α} (h : Linked next (before ++ p :: after)) : next p = after.head? := by
  induction before with
  | nil => exact h.1
  | cons x xs ih => exact ih h.2

theorem cut_at (hnd : l.Nodup) (hp : p ∈ l) : ∃ before after, l = before ++ p :: after ∧ p ∉ before := by
  obtain ⟨before, after, rfl⟩ := List.append_of_mem hp
  exact ⟨before, after, rfl, fun hmem => (List.nodup_append.mp hnd).2.2 p hmem p List.mem_cons_self rfl⟩

variable [DecidableEq α]

def insertAfter (p x : α) : List α → List α
  | [] => []
  | y :: ys => if y = p then y :: x :: ys else y :: insertAfter p x ys

theorem insertAfter_append (hp : p ∉ before) (x : α) (after : List α) :
    insertAfter p x (before ++ p :: after) = before ++ p :: x :: after := by
  induction before with
  | nil => rw [List.nil_append, insertAfter, if_pos rfl, List.nil_append]
  | cons y ys ih =>
    rw [List.mem_cons, not_or] at hp
    rw [List.cons_append, insertAfter, if_neg (Ne.symm hp.1), ih hp.2, List.cons_append]

theorem mem_insertAfter (hp : p ∈ l) : y ∈ insertAfter p x l ↔ y = x ∨ y ∈ l := by
  induction l with
  | nil => cases hp
  | cons z zs ih =>
    rw [insertAfter]
    split
    · simp only [List.mem_cons]
      tauto
    · next hne =>
      have hp' := (List.mem_cons.mp hp).resolve_left (Ne.symm hne)
      simp only [List.mem_cons, ih hp']
      tauto

theorem sublist_insertAfter (p x : α) (l : List α) : List.Sublist l (insertAfter p x l) := by
  induction l with
  | nil => exact List.Sublist.refl _
  | cons y ys ih =>
    rw [insertAfter]
    split
    · exact (List.sublist_cons_self x ys).cons_cons y
    · exact ih.cons_cons y

theorem head?_insertAfter (p x : α) (l : List α) : (insertAfter p x l).head? = l.head? := by
  cases l with
  | nil => rfl
  | cons y ys =>
    rw [insertAfter]
    split
    · rfl
    · rfl

theorem nodup_insertAfter (h : l.Nodup) (hp : p ∈ l) (hx : x ∉ l) : (insertAfter p x l).Nodup := by
  obtain ⟨before, after, rfl, hnot⟩ := cut_at h hp
  rw [insertAfter_append hnot]
  have hperm : List.Perm (before ++ p :: x :: after) (x :: (before ++ p :: after)) := by
    rw [List.append_cons, List.append_cons before p after]
    exact List.perm_middle
  exact hperm.nodup_iff.mpr (List.nodup_cons.mpr ⟨hx, h⟩)

/-- **Splicing**: when a new node that points where `p` points is made `p`'s successor, the chain is
the old one with the node behind `p`. -/
theorem Linked.insertAfter (h : Linked next l) (hnd : l.Nodup) (hx : x ∉ l) (hp : p ∈ l) (hpx : next x = next p) :
    Linked (Function.update next p (some x)) (insertAfter p x l) := by
  have hne : x ≠ p := fun heq => hx (heq ▸ hp)
  induction l with
  | nil => cases hp
  | cons y ys ih =>
    rw [List.nodup_cons] at hnd
    rw [List.mem_cons, not_or] at hx
    rw [Lib.insertAfter]
    split
    · next hy =>
      subst hy
      refine ⟨Function.update_self y (some x) next, ?_, ?_⟩
      · rw [Function.update_of_ne hne, hpx]
        exact h.1
      · exact h.2.congr fun z hz => Function.update_of_ne (ne_of_mem_of_not_mem hz hnd.1) _ _
    · next hy =>
      refine ⟨?_, ih h.2 hnd.2 hx.2 ((List.mem_cons.mp hp).resolve_left (Ne.symm hy))⟩
      rw [Function.update_of_ne hy, head?_insertAfter]
      exact h.1

end

/-! ### Order -/

section
variable {α κ : Type*} {cmp : κ → κ → Ordering} {key : α → κ} {next : α → Option α} {p x y : α} {l : List α}

theorem WeaklyAscending.of_sublist {l' : List α} (h : WeaklyAscending cmp key l') (hsub : List.Sublist l l') :
    WeaklyAscending cmp key l := List.Pairwise.sublist hsub h

variable [Std.TransCmp cmp]

theorem weaklyAscending_cons (h : WeaklyAscending cmp key l)
    (hx : ∀ y ∈ l.head?, cmp (key x) (key y) ≠ .gt) : WeaklyAscending cmp key (x :: l) := by
  refine List.pairwise_cons.mpr ⟨fun y hy => ?_, h⟩
  cases l with
  | nil => cases hy
  | cons z zs =>
    have hz := hx z rfl
    rcases List.mem_cons.mp hy with rfl | hy
    · exact hz
    · exact cmp_le_trans hz ((List.pairwise_cons.mp h).1 y hy)

variable [DecidableEq α]

/-- **Insertion in place** keeps the order. -/
theorem weaklyAscending_insertAfter (h : WeaklyAscending cmp key l)
    (hlinked : Linked next l) (hnd : l.Nodup) (hp : p ∈ l) (hpx : cmp (key p) (key x) ≠ .gt)
    (hx : ∀ y ∈ next p, cmp (key x) (key y) ≠ .gt) : WeaklyAscending cmp key (insertAfter p x l) := by
  obtain ⟨before, after, rfl, hnot⟩ := cut_at hnd hp
  rw [insertAfter_append hnot]
  rw [hlinked.succ] at hx
  obtain ⟨hbefore, hrest, hcross⟩ := List.pairwise_append.mp h
  have hafter := (List.pairwise_cons.mp hrest).2
  have hxafter := weaklyAscending_cons hafter hx
  have hpafter : WeaklyAscending cmp key (p :: x :: after) :=
    weaklyAscending_cons hxafter fun y hy => by rwa [← Option.some.inj hy]
  refine List.pairwise_append.mpr ⟨hbefore, hpafter, fun a ha b hb => ?_⟩
  have hap := hcross a ha p List.mem_cons_self
  rcases List.mem_cons.mp hb with rfl | hb
  · exact hap
  · exact cmp_le_trans hap ((List.pairwise_cons.mp hpafter).1 b hb)

omit [Std.TransCmp cmp] in
/-- Insertion in front of a smaller node is out of order. -/
theorem not_weaklyAscending_insertAfter (hlinked : Linked next l) (hnd : l.Nodup) (hp : p ∈ l) (hy : next p = some y)
    (hgt : cmp (key x) (key y) = .gt) : ¬ WeaklyAscending cmp key (insertAfter p x l) := by
  obtain ⟨before, after, rfl, hnot⟩ := cut_at hnd hp
  rw [insertAfter_append hnot]
  intro h
  have hmem : y ∈ after := List.mem_of_head? (hlinked.succ.symm.trans hy)
  have hcons := (List.pairwise_cons.mp (List.pairwise_append.mp h).2.1).2
  exact (List.pairwise_cons.mp hcons).1 y hmem hgt

end

end Sovereign.Lib

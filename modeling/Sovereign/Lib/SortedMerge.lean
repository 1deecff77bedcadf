import Mathlib

/-!
# Strictly ascending lists and their two-pointer merge

A list whose elements carry a key is kept strictly ascending by that key; such a list is a finite
map from keys to elements in canonical form.  The operations here are the usual ones on it:

* `merge` — the two-pointer merge that keeps the left element on equal keys;
* `dedupAdjacent` — drop every element whose key equals that of the last element kept;
* `insertFromEnd` — the last step of an insertion sort.

Each keeps `Ascending`; the first and the last have an exact membership law (`mem_merge`,
`mem_insertFromEnd`).  `Ascending.ext_mem` says that the form is canonical: two ascending
lists with the same elements are equal.  The comparison is any lawful three-way one.
-/

namespace Sovereign.Lib

section
variable {α κ : Type*} (cmp : κ → κ → Ordering) (key : α → κ)

def Ascending (l : List α) : Prop := l.Pairwise fun a b => cmp (key a) (key b) = .lt

instance (l : List α) : Decidable (Ascending cmp key l) :=
  inferInstanceAs (Decidable (List.Pairwise _ _))

/-- The inner loop of `merge`: the head `x` of the left list against the right list, where `rest`
merges the left list's tail. -/
def mergeInto (x : α) (xs : List α) (rest : List α → List α) : List α → List α
  | [] => x :: xs
  | y :: ys =>
    match cmp (key x) (key y) with
    | .lt => x :: rest (y :: ys)
    | .gt => y :: mergeInto x xs rest ys
    | .eq => x :: rest ys

/-- Two-pointer merge of two lists; on equal keys the left element stays and the right one goes. -/
def merge : List α → List α → List α
  | [], ys => ys
  | x :: xs, ys => mergeInto cmp key x xs (merge xs) ys

/-- Keep an element unless its key equals that of the last element kept. -/
def dedupAdjacent : List α → List α
  | [] => []
  | x :: xs => x :: go x xs
where
  go (last : α) : List α → List α
    | [] => []
    | y :: ys => if cmp (key y) (key last) = .eq then go last ys else y :: go y ys

/-- A list in which equal keys mean equal elements. -/
def KeyDetermines (l : List α) : Prop :=
  ∀ a ∈ l, ∀ b ∈ l, key a = key b → a = b

/-- Ascending with repetitions: no element is greater than a later one. -/
def WeaklyAscending (l : List α) : Prop :=
  l.Pairwise fun a b => cmp (key a) (key b) ≠ .gt

/-- Put `y` behind `xs`, then move every trailing element greater than `y` one place up. -/
def insertFromEnd (xs : List α) (y : α) : List α :=
  xs.rdropWhile (fun x => cmp (key x) (key y) == .gt) ++
    y :: xs.rtakeWhile (fun x => cmp (key x) (key y) == .gt)

end

section
variable {α κ : Type*} {cmp : κ → κ → Ordering} {key : α → κ}

/-! ### Equations of `merge` -/

@[simp] theorem merge_nil_left (ys : List α) : merge cmp key [] ys = ys := rfl

@[simp] theorem merge_nil_right (xs : List α) : merge cmp key xs [] = xs := by
  cases xs <;> rfl

variable {y : α} {xs ys : List α} {a : α} {l : List α}

theorem merge_cons_lt {x : α} (h : cmp (key x) (key y) = .lt) (xs ys : List α) :
    merge cmp key (x :: xs) (y :: ys) = x :: merge cmp key xs (y :: ys) := by
  simp only [merge, mergeInto, h]

theorem merge_cons_gt {x : α} (h : cmp (key x) (key y) = .gt) (xs ys : List α) :
    merge cmp key (x :: xs) (y :: ys) = y :: merge cmp key (x :: xs) ys := by
  simp only [merge, mergeInto, h]

theorem merge_cons_eq {x : α} (h : cmp (key x) (key y) = .eq) (xs ys : List α) :
    merge cmp key (x :: xs) (y :: ys) = x :: merge cmp key xs ys := by
  simp only [merge, mergeInto, h]

/-- Induction along the two pointers of a merge. -/
theorem merge_induction (cmp : κ → κ → Ordering) (key : α → κ) {motive : List α → List α → Prop}
    (nil_left : ∀ ys, motive [] ys) (nil_right : ∀ x xs, motive (x :: xs) [])
    (lt : ∀ x xs y ys, cmp (key x) (key y) = .lt → motive xs (y :: ys) →
      motive (x :: xs) (y :: ys))
    (gt : ∀ x xs y ys, cmp (key x) (key y) = .gt → motive (x :: xs) ys →
      motive (x :: xs) (y :: ys))
    (eq : ∀ x xs y ys, cmp (key x) (key y) = .eq → motive xs ys → motive (x :: xs) (y :: ys))
    (xs ys : List α) : motive xs ys := by
  induction xs generalizing ys with
  | nil => exact nil_left ys
  | cons x xs ihx =>
    induction ys with
    | nil => exact nil_right x xs
    | cons y ys ihy =>
      cases h : cmp (key x) (key y) with
      | lt => exact lt x xs y ys h (ihx _)
      | gt => exact gt x xs y ys h ihy
      | eq => exact eq x xs y ys h (ihx _)

theorem sublist_merge (xs ys : List α) : xs.Sublist (merge cmp key xs ys) := by
  induction xs, ys using merge_induction cmp key with
  | nil_left ys => exact List.nil_sublist _
  | nil_right x xs => simp
  | lt x xs y ys h ih => rw [merge_cons_lt h]; exact ih.cons_cons x
  | gt x xs y ys h ih => rw [merge_cons_gt h]; exact ih.cons y
  | eq x xs y ys h ih => rw [merge_cons_eq h]; exact ih.cons_cons x

theorem merge_eq_left_of_length (h : (merge cmp key xs ys).length = xs.length) : merge cmp key xs ys = xs :=
  ((sublist_merge xs ys).eq_of_length h.symm).symm

theorem length_le_length_merge (xs ys : List α) :
    xs.length ≤ (merge cmp key xs ys).length := (sublist_merge xs ys).length_le

theorem mem_of_mem_merge {z : α} (hz : z ∈ merge cmp key xs ys) : z ∈ xs ∨ z ∈ ys := by
  induction xs, ys using merge_induction cmp key with
  | nil_left ys => exact .inr hz
  | nil_right x xs => exact .inl (by simpa using hz)
  | lt x xs y ys h ih =>
    rw [merge_cons_lt h, List.mem_cons] at hz
    rcases hz with rfl | hz
    · simp
    · rcases ih hz with hx | hy
      · exact .inl (List.mem_cons_of_mem _ hx)
      · exact .inr hy
  | gt x xs y ys h ih =>
    rw [merge_cons_gt h, List.mem_cons] at hz
    rcases hz with rfl | hz
    · simp
    · rcases ih hz with hx | hy
      · exact .inl hx
      · exact .inr (List.mem_cons_of_mem _ hy)
  | eq x xs y ys h ih =>
    rw [merge_cons_eq h, List.mem_cons] at hz
    rcases hz with rfl | hz
    · simp
    · rcases ih hz with hx | hy
      · exact .inl (List.mem_cons_of_mem _ hx)
      · exact .inr (List.mem_cons_of_mem _ hy)

theorem lt_head_merge {k : κ} (hx : ∀ x ∈ xs, cmp k (key x) = .lt)
    (hy : ∀ y ∈ ys, cmp k (key y) = .lt) : ∀ z ∈ merge cmp key xs ys, cmp k (key z) = .lt := by
  intro z hz
  rcases mem_of_mem_merge hz with h | h
  · exact hx z h
  · exact hy z h

/-! ### Unfolding `Ascending`, and the subset laws -/

@[simp] theorem ascending_nil : Ascending cmp key [] := List.Pairwise.nil

@[simp] theorem ascending_singleton (a : α) : Ascending cmp key [a] := List.pairwise_singleton _ _

theorem ascending_cons :
    Ascending cmp key (a :: l) ↔ (∀ b ∈ l, cmp (key a) (key b) = .lt) ∧ Ascending cmp key l :=
  List.pairwise_cons

theorem Ascending.tail (h : Ascending cmp key (a :: l)) : Ascending cmp key l := (ascending_cons.mp h).2

theorem Ascending.head_lt (h : Ascending cmp key (a :: l)) :
    ∀ b ∈ l, cmp (key a) (key b) = .lt := (ascending_cons.mp h).1

theorem dedup_go_subset (last : α) (l : List α) :
    ∀ z ∈ dedupAdjacent.go cmp key last l, z ∈ l := by
  induction l generalizing last with
  | nil => simp [dedupAdjacent.go]
  | cons y ys ih =>
    intro z hz
    rw [dedupAdjacent.go] at hz
    split at hz
    · exact List.mem_cons_of_mem _ (ih last z hz)
    · rcases List.mem_cons.mp hz with rfl | hz
      · exact List.mem_cons_self
      · exact List.mem_cons_of_mem _ (ih y z hz)

theorem dedupAdjacent_subset (l : List α) : ∀ z ∈ dedupAdjacent cmp key l, z ∈ l := by
  cases l with
  | nil => simp [dedupAdjacent]
  | cons x xs =>
    intro z hz
    rcases List.mem_cons.mp hz with rfl | hz
    · exact List.mem_cons_self
    · exact List.mem_cons_of_mem _ (dedup_go_subset x xs z hz)

theorem insertFromEnd_perm (xs : List α) (y : α) :
    (insertFromEnd cmp key xs y).Perm (y :: xs) := by
  have hsplit := List.rdropWhile_append_rtakeWhile
    (p := fun x => cmp (key x) (key y) == .gt) (l := xs)
  unfold insertFromEnd
  refine List.perm_middle.trans (List.Perm.cons y ?_)
  rw [hsplit]

@[simp] theorem mem_insertFromEnd {z : α} : z ∈ insertFromEnd cmp key xs y ↔ z = y ∨ z ∈ xs := by
  rw [(insertFromEnd_perm xs y).mem_iff, List.mem_cons]

end

section
variable {α κ : Type*} {cmp : κ → κ → Ordering} {key : α → κ}

variable {a : κ} {xs : List α} {b : κ} {z : α} {l ys : List α}

section
variable [Std.LawfulEqCmp cmp]

/-! ### Equal keys -/

theorem cmp_eq_iff : cmp a b = .eq ↔ a = b := Std.LawfulEqCmp.compare_eq_iff_eq

theorem cmp_self (a : κ) : cmp a a = .eq := cmp_eq_iff.mpr rfl

theorem cmp_lt_irrefl : cmp a a ≠ .lt := by simp [cmp_self]

theorem ne_of_cmp_lt (h : cmp a b = .lt) : a ≠ b := by
  rintro rfl
  exact cmp_lt_irrefl h

theorem Ascending.eq_of_key_eq (h : Ascending cmp key l) {a b : α} (ha : a ∈ l)
    (hb : b ∈ l) (hk : key a = key b) : a = b := by
  induction l with
  | nil => cases ha
  | cons c l ih =>
    rw [List.mem_cons] at ha hb
    rcases ha with rfl | ha <;> rcases hb with rfl | hb
    · rfl
    · exact absurd hk (ne_of_cmp_lt (h.head_lt b hb))
    · exact absurd hk.symm (ne_of_cmp_lt (h.head_lt a ha))
    · exact ih h.tail ha hb

theorem Ascending.nodup (h : Ascending cmp key l) : l.Nodup :=
  h.imp fun hab => fun e => ne_of_cmp_lt hab (congrArg key e)

theorem exists_key_dedup_go (last : α) (l : List α) (hz : z ∈ l) :
    ∃ w ∈ last :: dedupAdjacent.go cmp key last l, key w = key z := by
  induction l generalizing last with
  | nil => cases hz
  | cons y ys ih =>
    rw [dedupAdjacent.go]
    split
    · next heq =>
      rcases List.mem_cons.mp hz with rfl | hz
      · exact ⟨last, List.mem_cons_self, (cmp_eq_iff.mp heq).symm⟩
      · exact ih last hz
    · rcases List.mem_cons.mp hz with rfl | hz
      · exact ⟨z, by simp, rfl⟩
      · obtain ⟨w, hw, hk⟩ := ih y hz
        exact ⟨w, List.mem_cons_of_mem _ hw, hk⟩

theorem exists_key_dedupAdjacent (hz : z ∈ l) : ∃ w ∈ dedupAdjacent cmp key l, key w = key z := by
  cases l with
  | nil => cases hz
  | cons x xs =>
    rcases List.mem_cons.mp hz with rfl | hz
    · exact ⟨z, List.mem_cons_self, rfl⟩
    · exact exists_key_dedup_go x xs hz

end

variable [Std.TransCmp cmp]

/-! ### Dropping adjacent duplicates -/

theorem cmp_gt_iff : cmp a b = .gt ↔ cmp b a = .lt := Std.OrientedCmp.gt_iff_lt

theorem cmp_lt_trans {c : κ} (hab : cmp a b = .lt) (hbc : cmp b c = .lt) : cmp a c = .lt :=
  Std.TransCmp.lt_trans hab hbc

theorem lt_of_ne_gt_of_ne_eq (h : cmp a b ≠ .gt) (hne : cmp b a ≠ .eq) : cmp a b = .lt := by
  cases hc : cmp a b with
  | lt => rfl
  | gt => exact absurd hc h
  | eq => exact absurd (Std.OrientedCmp.eq_symm hc) hne

theorem ascending_dedup_go (last : α) (l : List α)
    (h : WeaklyAscending cmp key (last :: l)) :
    Ascending cmp key (last :: dedupAdjacent.go cmp key last l) := by
  induction l generalizing last with
  | nil => simp [dedupAdjacent.go]
  | cons y ys ih =>
    obtain ⟨hlast, hrest⟩ := List.pairwise_cons.mp h
    obtain ⟨hy, hys⟩ := List.pairwise_cons.mp hrest
    rw [dedupAdjacent.go]
    split
    · exact ih last (List.pairwise_cons.mpr
        ⟨fun z hz => hlast z (List.mem_cons_of_mem _ hz), hys⟩)
    · next hne =>
      have hlt := lt_of_ne_gt_of_ne_eq (hlast y List.mem_cons_self) hne
      have hrec := ih y hrest
      refine ascending_cons.mpr ⟨fun z hz => ?_, hrec⟩
      rcases List.mem_cons.mp hz with rfl | hz
      · exact hlt
      · exact cmp_lt_trans hlt (hrec.head_lt z hz)

/-- Dropping adjacent duplicates of a sorted list leaves it strictly ascending. -/
theorem ascending_dedupAdjacent (h : WeaklyAscending cmp key l) :
    Ascending cmp key (dedupAdjacent cmp key l) := by
  cases l with
  | nil => simp [dedupAdjacent]
  | cons x xs => exact ascending_dedup_go x xs h

variable [Std.LawfulEqCmp cmp]

/-! ### Ascending lists -/

/-- **Canonical form.**  Two ascending lists with the same elements are equal. -/
theorem Ascending.ext_mem {l₁ l₂ : List α} (h₁ : Ascending cmp key l₁)
    (h₂ : Ascending cmp key l₂) (h : ∀ a, a ∈ l₁ ↔ a ∈ l₂) : l₁ = l₂ := by
  have hperm : l₁.Perm l₂ := (List.perm_ext_iff_of_nodup h₁.nodup h₂.nodup).mpr h
  refine hperm.eq_of_pairwise (fun a b _ _ hab hba => ?_) h₁ h₂
  exact absurd (cmp_lt_trans hab hba) cmp_lt_irrefl

/-! ### The merge of ascending lists -/

theorem ascending_merge (hx : Ascending cmp key xs) (hy : Ascending cmp key ys) :
    Ascending cmp key (merge cmp key xs ys) := by
  induction xs, ys using merge_induction cmp key with
  | nil_left ys => exact hy
  | nil_right x xs => simpa using hx
  | lt x xs y ys h ih =>
    rw [merge_cons_lt h, ascending_cons]
    refine ⟨lt_head_merge hx.head_lt fun z hz => ?_, ih hx.tail hy⟩
    rcases List.mem_cons.mp hz with rfl | hz
    · exact h
    · exact cmp_lt_trans h (hy.head_lt z hz)
  | gt x xs y ys h ih =>
    rw [merge_cons_gt h, ascending_cons]
    have hyx : cmp (key y) (key x) = .lt := cmp_gt_iff.mp h
    refine ⟨lt_head_merge (fun z hz => ?_) hy.head_lt, ih hx hy.tail⟩
    rcases List.mem_cons.mp hz with rfl | hz
    · exact hyx
    · exact cmp_lt_trans hyx (hx.head_lt z hz)
  | eq x xs y ys h ih =>
    rw [merge_cons_eq h, ascending_cons]
    have hk : key x = key y := cmp_eq_iff.mp h
    exact ⟨lt_head_merge hx.head_lt (hk ▸ hy.head_lt), ih hx.tail hy.tail⟩

/-- **Membership in a merge**: all of the left list, and those elements of the right one whose key
the left list lacks. -/
theorem mem_merge (hx : Ascending cmp key xs) (hy : Ascending cmp key ys) :
    z ∈ merge cmp key xs ys ↔ z ∈ xs ∨ (z ∈ ys ∧ ∀ x ∈ xs, key x ≠ key z) := by
  induction xs, ys using merge_induction cmp key with
  | nil_left ys => simp
  | nil_right x xs => simp
  | lt x xs y ys h ih =>
    have hlt : z ∈ y :: ys → key x ≠ key z := fun hz => ne_of_cmp_lt <| by
      rcases List.mem_cons.mp hz with rfl | hz
      · exact h
      · exact cmp_lt_trans h (hy.head_lt z hz)
    rw [merge_cons_lt h, List.mem_cons, ih hx.tail hy, List.mem_cons (l := xs)]
    simp only [List.forall_mem_cons]
    tauto
  | gt x xs y ys h ih =>
    have hyx : cmp (key y) (key x) = .lt := cmp_gt_iff.mp h
    have hnew : ∀ w ∈ x :: xs, key w ≠ key y := fun w hw => Ne.symm <| ne_of_cmp_lt <| by
      rcases List.mem_cons.mp hw with rfl | hw
      · exact hyx
      · exact cmp_lt_trans hyx (hx.head_lt w hw)
    rw [merge_cons_gt h, List.mem_cons, ih hx hy.tail, List.mem_cons (l := ys)]
    constructor
    · rintro (rfl | hz | ⟨hz, hk⟩)
      · exact .inr ⟨.inl rfl, hnew⟩
      · exact .inl hz
      · exact .inr ⟨.inr hz, hk⟩
    · rintro (hz | ⟨rfl | hz, hk⟩)
      · exact .inr (.inl hz)
      · exact .inl rfl
      · exact .inr (.inr ⟨hz, hk⟩)
  | eq x xs y ys h ih =>
    have hk : key x = key y := cmp_eq_iff.mp h
    have hlt : z ∈ ys → key x ≠ key z := fun hz => hk ▸ ne_of_cmp_lt (hy.head_lt z hz)
    rw [merge_cons_eq h, List.mem_cons, ih hx.tail hy.tail, List.mem_cons, List.mem_cons]
    simp only [List.forall_mem_cons]
    constructor
    · rintro (rfl | hz | ⟨hz, hn⟩)
      · exact .inl (.inl rfl)
      · exact .inl (.inr hz)
      · exact .inr ⟨.inr hz, hlt hz, hn⟩
    · rintro ((rfl | hz) | ⟨rfl | hz, hn, hn'⟩)
      · exact .inl rfl
      · exact .inr (.inl hz)
      · exact absurd hk hn
      · exact .inr (.inr ⟨hz, hn'⟩)

/-- When equal keys mean equal elements, a merge is the union of its two lists. -/
theorem mem_merge_of_keyed (hx : Ascending cmp key xs)
    (hy : Ascending cmp key ys) (hd : ∀ x ∈ xs, ∀ y ∈ ys, key x = key y → x = y) :
    z ∈ merge cmp key xs ys ↔ z ∈ xs ∨ z ∈ ys := by
  rw [mem_merge hx hy]
  constructor
  · rintro (h | ⟨h, -⟩)
    · exact .inl h
    · exact .inr h
  · rintro (h | h)
    · exact .inl h
    · by_cases hk : ∃ x ∈ xs, key x = key z
      · obtain ⟨x, hxm, hkx⟩ := hk
        exact .inl (hd x hxm z h hkx ▸ hxm)
      · exact .inr ⟨h, fun x hxm hkx => hk ⟨x, hxm, hkx⟩⟩

theorem exists_key_merge (hx : Ascending cmp key xs) (hy : Ascending cmp key ys) (hz : z ∈ xs ∨ z ∈ ys) :
    ∃ w ∈ merge cmp key xs ys, key w = key z := by
  by_cases hk : ∃ x ∈ xs, key x = key z
  · obtain ⟨x, hxm, hkx⟩ := hk
    exact ⟨x, (mem_merge hx hy).mpr (.inl hxm), hkx⟩
  · refine ⟨z, (mem_merge hx hy).mpr ?_, rfl⟩
    rcases hz with h | h
    · exact .inl h
    · exact .inr ⟨h, fun x hxm hkx => hk ⟨x, hxm, hkx⟩⟩

/-! ### Insertion from the end -/

theorem rdropWhile_lt {y : α} (hx : Ascending cmp key xs) (hy : ∀ x ∈ xs, key x ≠ key y) :
    ∀ x ∈ xs.rdropWhile (fun x => cmp (key x) (key y) == .gt), cmp (key x) (key y) = .lt := by
  set kept := xs.rdropWhile (fun x => cmp (key x) (key y) == .gt) with hkept
  have hsub : kept.Sublist xs := (List.rdropWhile_prefix _ xs).sublist
  have hasc : Ascending cmp key kept := List.Pairwise.sublist hsub hx
  intro x hxm
  -- the last element kept is not above `y`, hence below it, and the others are below that one
  have hne : kept ≠ [] := List.ne_nil_of_mem hxm
  have hlast : cmp (key (kept.getLast hne)) (key y) = .lt := by
    have hng := List.rdropWhile_last_not (fun x => cmp (key x) (key y) == .gt) xs hne
    have hnk := hy _ (hsub.subset (List.getLast_mem hne))
    cases hc : cmp (key (kept.getLast hne)) (key y) with
    | lt => rfl
    | gt => exact absurd (by simpa using hc) hng
    | eq => exact absurd (cmp_eq_iff.mp hc) hnk
  rw [← List.dropLast_append_getLast hne] at hxm hasc
  rcases List.mem_append.mp hxm with h | h
  · have := (List.pairwise_append.mp hasc).2.2 x h _ List.mem_cons_self
    exact cmp_lt_trans this hlast
  · rw [List.mem_singleton] at h
    exact h ▸ hlast

theorem ascending_insertFromEnd {y : α} (hx : Ascending cmp key xs)
    (hy : ∀ x ∈ xs, key x ≠ key y) : Ascending cmp key (insertFromEnd cmp key xs y) := by
  have hsplit : Ascending cmp key (xs.rdropWhile (fun x => cmp (key x) (key y) == .gt) ++
      xs.rtakeWhile (fun x => cmp (key x) (key y) == .gt)) := by
    rwa [List.rdropWhile_append_rtakeWhile]
  obtain ⟨hkept, hmoved, hcross⟩ := List.pairwise_append.mp hsplit
  refine List.pairwise_append.mpr ⟨hkept, List.pairwise_cons.mpr ⟨fun z hz => ?_, hmoved⟩, ?_⟩
  · exact cmp_gt_iff.mp (by simpa using List.mem_rtakeWhile_imp hz)
  · intro a ha b hb
    rcases List.mem_cons.mp hb with rfl | hb
    · exact rdropWhile_lt hx hy a ha
    · exact hcross a ha b hb

end

end Sovereign.Lib

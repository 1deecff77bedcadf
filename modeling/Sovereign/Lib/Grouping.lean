import Sovereign.Lib.SortedMerge

/-!
# Runs of equal keys in a sorted list

`groupRuns f l` cuts a list into its maximal runs of elements with the same `f`-value, as a scan
does that advances while the value stays the same.  On a list sorted by `f` a run holds every
element with its value, so the runs are the fibres of `f` and their values are
distinct (`isFibres_groupRuns`).

A loop over such runs updates a map once per key.  `foldl_keyed` is the rule for it: if one step
changes the value of its own key only, then after the loop every visited key has been updated once
and every other key is as it was.

`sortBy` is the sort of a list by a comparator on keys; on the keys themselves its result depends
on the elements only (`sortBy_congr`).
-/

namespace Sovereign.Lib

section
variable {α κ : Type*} [DecidableEq κ]

/-- The maximal runs of elements with one `f`-value, in order. -/
def groupRuns (f : α → κ) : List α → List (κ × List α)
  | [] => []
  | x :: xs =>
    match groupRuns f xs with
    | [] => [(f x, [x])]
    | (k, ys) :: rest =>
      if k = f x then (k, x :: ys) :: rest else (f x, [x]) :: (k, ys) :: rest

theorem groupRuns_cons_head (f : α → κ) (x : α) (xs : List α) :
    ∃ ys rest, groupRuns f (x :: xs) = (f x, ys) :: rest := by
  rw [groupRuns]
  split
  · exact ⟨[x], [], rfl⟩
  · next k ys rest _ =>
    split
    · next hk => exact ⟨x :: ys, rest, by rw [hk]⟩
    · exact ⟨[x], (k, ys) :: rest, rfl⟩

theorem flatMap_groupRuns (f : α → κ) (l : List α) : (groupRuns f l).flatMap Prod.snd = l := by
  induction l with
  | nil => rfl
  | cons x xs ih =>
    rw [groupRuns]
    split
    · next hnil =>
      rw [hnil] at ih
      rw [← ih]
      rfl
    · next k ys rest hcons =>
      rw [hcons] at ih
      split <;> simpa using ih

theorem groupRuns_eq_nil {f : α → κ} {l : List α} (h : groupRuns f l = []) : l = [] := by
  cases l with
  | nil => rfl
  | cons x xs =>
    obtain ⟨ys, rest, he⟩ := groupRuns_cons_head f x xs
    rw [he] at h
    cases h

end

section
variable {α κ : Type*} [DecidableEq κ] {cmp : κ → κ → Ordering} [Std.TransCmp cmp]
  [Std.LawfulEqCmp cmp] {f : α → κ} {l : List α}

omit [DecidableEq κ] in
/-- In a sorted list a value smaller than the next element's is smaller than all later ones. -/
theorem ne_of_lt_head {x y : α} {ys : List α} (h : WeaklyAscending cmp f (x :: y :: ys))
    (hne : f y ≠ f x) : ∀ z ∈ y :: ys, f z ≠ f x := by
  obtain ⟨hx, hys⟩ := List.pairwise_cons.mp h
  have hlt : cmp (f x) (f y) = .lt :=
    lt_of_ne_gt_of_ne_eq (hx y List.mem_cons_self) fun e => hne (cmp_eq_iff.mp e)
  intro z hz e
  rcases List.mem_cons.mp hz with rfl | hz
  · exact hne e
  · have hyz := (List.pairwise_cons.mp hys).1 z hz
    rw [e] at hyz
    exact hyz (cmp_gt_iff.mpr hlt)

/-- `runs` lists the fibres of `f` over `l`, each once. -/
structure IsFibres (f : α → κ) (l : List α) (runs : List (κ × List α)) : Prop where
  nodup : (runs.map Prod.fst).Nodup
  mem_iff : ∀ k ys, (k, ys) ∈ runs ↔ ys = l.filter (fun a => f a = k) ∧ ys ≠ []

omit [Std.TransCmp cmp] [Std.LawfulEqCmp cmp] in
/-- An element with the value of the first run joins that run. -/
theorem IsFibres.join_first {k : κ} {ys : List α} {rest : List (κ × List α)}
    (h : IsFibres f l ((k, ys) :: rest)) {x : α} (hk : k = f x) :
    IsFibres f (x :: l) ((k, x :: ys) :: rest) := by
  have hnd := h.nodup
  rw [List.map_cons, List.nodup_cons] at hnd
  refine ⟨by simpa using hnd, fun k' ys' => ?_⟩
  by_cases hk' : k' = k
  · subst hk'
    have hys : ys = l.filter (fun a => f a = k') := ((h.mem_iff k' ys).mp List.mem_cons_self).1
    have hfil : (x :: l).filter (fun a => f a = k') = x :: ys := by
      rw [List.filter_cons_of_pos (by simpa using hk.symm), ← hys]
    have hrest : (k', ys') ∉ rest :=
      fun hm => hnd.1 (List.mem_map.mpr ⟨(k', ys'), hm, rfl⟩)
    simp only [List.mem_cons, Prod.mk.injEq, true_and, hrest, or_false, hfil]
    exact ⟨fun e => ⟨e, by simp [e]⟩, fun e => e.1⟩
  · have hfil : (x :: l).filter (fun a => f a = k') = l.filter (fun a => f a = k') :=
      List.filter_cons_of_neg (by simpa [← hk] using Ne.symm hk')
    have hm := h.mem_iff k' ys'
    simp only [List.mem_cons, Prod.mk.injEq, hk', false_and, false_or] at hm ⊢
    rw [hm, hfil]

omit [Std.TransCmp cmp] [Std.LawfulEqCmp cmp] in
/-- An element with a value that does not occur starts a run of its own. -/
theorem IsFibres.new_first {runs : List (κ × List α)} (h : IsFibres f l runs) {x : α}
    (hx : ∀ z ∈ l, f z ≠ f x) : IsFibres f (x :: l) ((f x, [x]) :: runs) := by
  have hnil : l.filter (fun a => f a = f x) = [] :=
    List.filter_eq_nil_iff.mpr fun a ha => by simpa using hx a ha
  have hfresh : ∀ ys, (f x, ys) ∉ runs := fun ys hm =>
    ((h.mem_iff (f x) ys).mp hm).2 (((h.mem_iff (f x) ys).mp hm).1.trans hnil)
  constructor
  · rw [List.map_cons, List.nodup_cons]
    refine ⟨fun hm => ?_, h.nodup⟩
    obtain ⟨⟨k, ys⟩, hp, rfl⟩ := List.mem_map.mp hm
    exact hfresh ys hp
  · intro k ys
    by_cases hk : k = f x
    · subst hk
      have hfil : (x :: l).filter (fun a => f a = f x) = [x] := by
        rw [List.filter_cons_of_pos (by simp), hnil]
      simp only [List.mem_cons, Prod.mk.injEq, true_and, hfresh ys, or_false, hfil]
      exact ⟨fun e => ⟨e, by simp [e]⟩, fun e => e.1⟩
    · have hfil : (x :: l).filter (fun a => f a = k) = l.filter (fun a => f a = k) :=
        List.filter_cons_of_neg (by simpa using Ne.symm hk)
      rw [List.mem_cons, hfil]
      simp only [Prod.mk.injEq, hk, false_and, false_or]
      exact h.mem_iff k ys

theorem isFibres_groupRuns (h : WeaklyAscending cmp f l) : IsFibres f l (groupRuns f l) := by
  induction l with
  | nil => exact ⟨by simp [groupRuns], by simp [groupRuns]⟩
  | cons x xs ih =>
    have hfib := ih (List.pairwise_cons.mp h).2
    rw [groupRuns]
    split
    · next hnil =>
      have hxs : xs = [] := groupRuns_eq_nil hnil
      rw [hnil] at hfib
      exact hfib.new_first (by simp [hxs])
    · next k ys rest hcons =>
      rw [hcons] at hfib
      split
      · next hk => exact hfib.join_first hk
      · next hk =>
        cases xs with
        | nil => cases hcons
        | cons y zs =>
          obtain ⟨ws, rest', he⟩ := groupRuns_cons_head f y zs
          have hhead : k = f y := congrArg Prod.fst (List.cons.inj (hcons.symm.trans he)).1
          exact hfib.new_first (ne_of_lt_head h (hhead ▸ hk))

theorem ascending_groupRuns (h : WeaklyAscending cmp f l) :
    (groupRuns f l).Pairwise fun run run' => cmp run.1 run'.1 = .lt := by
  induction l with
  | nil => exact List.Pairwise.nil
  | cons x xs ih =>
    have hxs := ih (List.pairwise_cons.mp h).2
    have hfib := isFibres_groupRuns (List.pairwise_cons.mp h).2
    rw [groupRuns]
    split
    · exact List.pairwise_singleton _ _
    · next k ys rest hcons =>
      rw [hcons] at hxs hfib
      split
      · next hk => exact List.pairwise_cons.mpr (List.pairwise_cons.mp hxs)
      · next hk =>
        refine List.pairwise_cons.mpr ⟨fun run hrun => ?_, hxs⟩
        obtain ⟨hrows, hne⟩ := (hfib.mem_iff run.1 run.2).mp hrun
        obtain ⟨z, hz⟩ := List.exists_mem_of_ne_nil _ hne
        rw [hrows, List.mem_filter, decide_eq_true_eq] at hz
        have hle := (List.pairwise_cons.mp h).1 z hz.1
        refine lt_of_ne_gt_of_ne_eq (hz.2 ▸ hle) fun he => ?_
        cases xs with
        | nil => cases hz.1
        | cons y zs =>
          obtain ⟨ws, rest', hhead⟩ := groupRuns_cons_head f y zs
          have hky : k = f y := congrArg Prod.fst (List.cons.inj (hcons.symm.trans hhead)).1
          exact ne_of_lt_head h (hky ▸ hk) z hz.1 (hz.2.trans (cmp_eq_iff.mp he))

end

/-! ### Loops over distinct keys -/

section
variable {σ κ β γ : Type*} [DecidableEq κ]

/-- The rule for a loop that updates one key per step, with all keys distinct. -/
theorem foldl_keyed (Inv : σ → Prop) (read : σ → κ → γ) (f : γ → β → γ) {step : σ → κ × β → σ}
    {pairs : List (κ × β)} (hnd : (pairs.map Prod.fst).Nodup)
    (hstep : ∀ s, Inv s → ∀ p ∈ pairs, Inv (step s p) ∧
      ∀ k, read (step s p) k = if k = p.1 then f (read s k) p.2 else read s k)
    {s : σ} (hs : Inv s) :
    Inv (pairs.foldl step s) ∧
      (∀ p ∈ pairs, read (pairs.foldl step s) p.1 = f (read s p.1) p.2) ∧
      ∀ k, k ∉ pairs.map Prod.fst → read (pairs.foldl step s) k = read s k := by
  induction pairs generalizing s with
  | nil => exact ⟨hs, by simp, fun _ _ => rfl⟩
  | cons p ps ih =>
    rw [List.map_cons, List.nodup_cons] at hnd
    obtain ⟨hinv, hread⟩ := hstep s hs p List.mem_cons_self
    obtain ⟨hinv', hin, hout⟩ :=
      ih hnd.2 (fun s hs q hq => hstep s hs q (List.mem_cons_of_mem _ hq)) hinv
    refine ⟨hinv', fun q hq => ?_, fun k hk => ?_⟩
    · rcases List.mem_cons.mp hq with rfl | hq
      · exact (hout q.1 hnd.1).trans (by rw [hread, if_pos rfl])
      · have hne : q.1 ≠ p.1 := fun e => hnd.1 (e ▸ List.mem_map_of_mem hq)
        exact (hin q hq).trans (by rw [hread, if_neg hne])
    · rw [List.map_cons, List.mem_cons, not_or] at hk
      exact (hout k hk.2).trans (by rw [hread, if_neg hk.1])

end

/-! ### Sorting by a comparator -/

section
variable {α κ : Type*} {cmp : κ → κ → Ordering} {key : α → κ}

def sortBy (cmp : κ → κ → Ordering) (key : α → κ) (l : List α) : List α :=
  l.insertionSort fun a b => cmp (key a) (key b) ≠ .gt

theorem sortBy_perm (l : List α) : (sortBy cmp key l).Perm l := List.perm_insertionSort _ l

variable [Std.TransCmp cmp]

theorem cmp_le_trans {a b c : κ} (hab : cmp a b ≠ .gt) (hbc : cmp b c ≠ .gt) : cmp a c ≠ .gt :=
  Ordering.isLE_iff_ne_gt.mp
    (Std.TransCmp.isLE_trans (Ordering.isLE_iff_ne_gt.mpr hab) (Ordering.isLE_iff_ne_gt.mpr hbc))

theorem isTrans_cmp_le : IsTrans α fun a b => cmp (key a) (key b) ≠ .gt := ⟨fun _ _ _ => cmp_le_trans⟩

theorem total_cmp_le : Std.Total fun a b : α => cmp (key a) (key b) ≠ .gt := by
  refine ⟨fun a b => ?_⟩
  by_contra hcon
  push Not at hcon
  have := Std.OrientedCmp.gt_iff_lt.mp hcon.1
  rw [hcon.2] at this
  cases this

theorem weaklyAscending_sortBy (l : List α) : WeaklyAscending cmp key (sortBy cmp key l) := by
  have htrans : IsTrans α fun a b => cmp (key a) (key b) ≠ .gt := isTrans_cmp_le
  have htotal : Std.Total fun a b : α => cmp (key a) (key b) ≠ .gt := total_cmp_le
  exact List.pairwise_insertionSort _ l

theorem weaklyAscending_orderedInsert {l : List α} (h : WeaklyAscending cmp key l) (a : α) :
    WeaklyAscending cmp key (l.orderedInsert (fun a b => cmp (key a) (key b) ≠ .gt) a) := by
  have htrans : IsTrans α fun a b => cmp (key a) (key b) ≠ .gt := isTrans_cmp_le
  have htotal : Std.Total fun a b : α => cmp (key a) (key b) ≠ .gt := total_cmp_le
  exact h.orderedInsert a l

theorem eq_of_perm_of_weaklyAscending [Std.LawfulEqCmp cmp] {xs ys : List κ} (h : xs.Perm ys)
    (hxs : WeaklyAscending cmp id xs) (hys : WeaklyAscending cmp id ys) : xs = ys := by
  refine List.Perm.eq_of_pairwise (fun a b _ _ hab hba => ?_) hxs hys h
  by_contra hne
  have hlt := lt_of_ne_gt_of_ne_eq hab fun he => hne (cmp_eq_iff.mp he).symm
  exact hba (cmp_gt_iff.mpr hlt)

/-- Sorting the keys themselves gives the same list for every arrangement of them. -/
theorem sortBy_congr [Std.LawfulEqCmp cmp] {xs ys : List κ} (h : xs.Perm ys) :
    sortBy cmp id xs = sortBy cmp id ys := by
  exact eq_of_perm_of_weaklyAscending (((sortBy_perm xs).trans h).trans (sortBy_perm ys).symm)
    (weaklyAscending_sortBy xs) (weaklyAscending_sortBy ys)

theorem filter_sortBy [Std.LawfulEqCmp cmp] (p : κ → Bool) (l : List κ) :
    (sortBy cmp id l).filter p = sortBy cmp id (l.filter p) := by
  exact eq_of_perm_of_weaklyAscending (((sortBy_perm l).filter p).trans (sortBy_perm (l.filter p)).symm)
    ((weaklyAscending_sortBy l).filter p) (weaklyAscending_sortBy (l.filter p))

end

end Sovereign.Lib

import Sovereign.Lib.Grouping

/-!
# Stable sorting

`sortBy` sorts by a key and is stable: elements with the same key keep the order they came in.  So the
sorted list is a function of the elements alone exactly when no two different elements share a key
(`sortBy_congr_iff`).

* `filter_sortBy_key` — stability: the elements of one key, in the order of the input.
* `sortBy_eq_of_perm` — one direction: keys that tell the elements apart leave one sorted list.
-/

namespace Sovereign.Lib

section
variable {α κ : Type*} {cmp : κ → κ → Ordering} {key : α → κ} [Std.TransCmp cmp]

/-- Keys that tell the elements apart leave one sorted list. -/
theorem sortBy_eq_of_perm [Std.LawfulEqCmp cmp] {xs ys : List α} (h : ys.Perm xs)
    (hkey : ∀ a ∈ xs, ∀ b ∈ xs, key a = key b → a = b) : sortBy cmp key ys = sortBy cmp key xs := by
  refine List.Perm.eq_of_pairwise (fun a b ha hb hab hba => ?_) (weaklyAscending_sortBy ys)
    (weaklyAscending_sortBy xs) (((sortBy_perm ys).trans h).trans (sortBy_perm xs).symm)
  refine hkey a (h.mem_iff.mp ((sortBy_perm ys).mem_iff.mp ha)) b ((sortBy_perm xs).mem_iff.mp hb) ?_
  by_contra hne
  have hlt := lt_of_ne_gt_of_ne_eq hab fun he => hne (cmp_eq_iff.mp he).symm
  exact hba (cmp_gt_iff.mpr hlt)

variable [DecidableEq κ]

/-- An element is put before the others of its key. -/
theorem filter_orderedInsert_key (a : α) (k : κ) (l : List α) :
    (l.orderedInsert (fun a b => cmp (key a) (key b) ≠ .gt) a).filter (key · = k)
      = (a :: l).filter (key · = k) := by
  rw [List.orderedInsert_eq_take_drop, List.filter_append]
  by_cases ha : key a = k
  · -- what the element passes has a smaller key
    have hskip : (l.takeWhile fun b => ¬ (cmp (key a) (key b) ≠ .gt)).filter (key · = k) = [] := by
      refine List.filter_eq_nil_iff.mpr fun b hb => ?_
      have hgt := List.mem_takeWhile_imp hb
      intro hbk
      have hkey : key b = key a := (of_decide_eq_true hbk).trans ha.symm
      simp [hkey, Std.ReflCmp.compare_self] at hgt
    have hrest := congrArg (List.filter (key · = k))
      (List.takeWhile_append_dropWhile (p := fun b => ¬ (cmp (key a) (key b) ≠ .gt)) (l := l))
    rw [List.filter_append, hskip, List.nil_append] at hrest
    rw [hskip, List.nil_append, List.filter_cons_of_pos (by simpa using ha),
      List.filter_cons_of_pos (by simpa using ha), hrest]
  · rw [List.filter_cons_of_neg (by simpa using ha), List.filter_cons_of_neg (by simpa using ha),
      ← List.filter_append, List.takeWhile_append_dropWhile]

/-- **Stability**: sorting keeps the order of the elements of one key. -/
theorem filter_sortBy_key (k : κ) (l : List α) :
    (sortBy cmp key l).filter (key · = k) = l.filter (key · = k) := by
  induction l with
  | nil => rfl
  | cons a l ih =>
    calc (sortBy cmp key (a :: l)).filter (key · = k)
        = (a :: sortBy cmp key l).filter (key · = k) := filter_orderedInsert_key a k _
      _ = (a :: l).filter (key · = k) := by rw [List.filter_cons, List.filter_cons, ih]

/-- The sorted list does not depend on the order of the input exactly when the keys tell the elements
apart. -/
theorem sortBy_congr_iff [DecidableEq α] [Std.LawfulEqCmp cmp] {xs : List α} :
    (∀ ys, ys.Perm xs → sortBy cmp key ys = sortBy cmp key xs) ↔
      ∀ a ∈ xs, ∀ b ∈ xs, key a = key b → a = b := by
  refine ⟨fun h a ha b hb hkey => ?_, fun h ys hperm => sortBy_eq_of_perm hperm h⟩
  by_contra hne
  -- both elements can come first, and the sorted list tells which one did
  have hb' : b ∈ xs.erase a := (List.mem_erase_of_ne (Ne.symm hne)).mpr hb
  have hperm : xs.Perm (a :: b :: (xs.erase a).erase b) :=
    (List.perm_cons_erase ha).trans ((List.perm_cons_erase hb').cons a)
  have hswap := (h _ hperm.symm).trans (h _ ((List.Perm.swap a b _).trans hperm.symm)).symm
  have hfilter := congrArg (List.filter (key · = key b)) hswap
  rw [filter_sortBy_key, filter_sortBy_key] at hfilter
  simp only [List.filter_cons, hkey, decide_true, if_true, List.cons.injEq] at hfilter
  exact hne hfilter.1

end

end Sovereign.Lib

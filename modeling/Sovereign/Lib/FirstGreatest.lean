import Sovereign.Lib.SortedMerge

/-!
# The first greatest element of a list

A scan keeps the greatest element so far, and an equal one does not take its place, so it ends with the first of
the greatest elements (`firstGreatest_eq_some_iff`).
-/

namespace Sovereign.Lib

section
variable {α κ : Type*} (cmp : κ → κ → Ordering) (key : α → κ)

/-- The greatest element, and of equal ones the first. -/
def firstGreatest : List α → Option α
  | [] => none
  | a :: l =>
    match firstGreatest l with
    | none => some a
    | some b => if cmp (key a) (key b) = .lt then some b else some a

def keepGreatest : Option α → α → Option α
  | none, a => some a
  | some b, a => if cmp (key b) (key a) = .lt then some a else some b

end

section
variable {α κ : Type*} {cmp : κ → κ → Ordering} {key : α → κ} {a b : α} {l : List α}

variable (cmp key) in
theorem firstGreatest_cons (a : α) (l : List α) :
    firstGreatest cmp key (a :: l) = some a ∧ (∀ b ∈ firstGreatest cmp key l, cmp (key a) (key b) ≠ .lt) ∨
      ∃ b, firstGreatest cmp key l = some b ∧ cmp (key a) (key b) = .lt ∧ firstGreatest cmp key (a :: l) = some b := by
  cases h : firstGreatest cmp key l with
  | none => exact .inl ⟨by rw [firstGreatest, h], nofun⟩
  | some b =>
    rw [firstGreatest, h]
    by_cases hlt : cmp (key a) (key b) = .lt
    · exact .inr ⟨b, rfl, hlt, if_pos hlt⟩
    · exact .inl ⟨if_neg hlt, by rintro _ ⟨⟩; exact hlt⟩

theorem firstGreatest_cons_of_lt (h : firstGreatest cmp key l = some b) (hlt : cmp (key a) (key b) = .lt) :
    firstGreatest cmp key (a :: l) = some b := by
  rw [firstGreatest, h]
  exact if_pos hlt

theorem firstGreatest_eq_none_iff : firstGreatest cmp key l = none ↔ l = [] := by
  cases l with
  | nil => exact ⟨fun _ => rfl, fun _ => rfl⟩
  | cons a l => rcases firstGreatest_cons cmp key a l with ⟨h, -⟩ | ⟨b, -, -, h⟩ <;> simp [h]

end

section
variable {α κ : Type*} {cmp : κ → κ → Ordering} [Std.TransCmp cmp] [Std.LawfulEqCmp cmp] {key : α → κ} {a : α}
  {l l' : List α}

theorem cmp_lt_of_not_lt {x y z : κ} (hxy : cmp x y ≠ .lt) (hxz : cmp x z = .lt) : cmp y z = .lt := by
  cases h : cmp x y with
  | lt => exact absurd h hxy
  | eq => rwa [← cmp_eq_iff.mp h]
  | gt => exact cmp_lt_trans (cmp_gt_iff.mp h) hxz

theorem firstGreatest_append_singleton (l : List α) (a : α) :
    firstGreatest cmp key (l ++ [a]) = keepGreatest cmp key (firstGreatest cmp key l) a := by
  induction l with
  | nil => rfl
  | cons x l ih =>
    rw [List.cons_append, firstGreatest, firstGreatest, ih]
    cases firstGreatest cmp key l with
    | none => rfl
    | some b =>
      -- the orders of `x`, of the greatest element of the rest and of `a`
      simp only [keepGreatest]
      by_cases hxb : cmp (key x) (key b) = .lt
      · by_cases hba : cmp (key b) (key a) = .lt
        · simp only [if_pos hxb, if_pos hba, if_pos (cmp_lt_trans hxb hba)]
        · simp only [if_pos hxb, if_neg hba]
      · by_cases hba : cmp (key b) (key a) = .lt
        · simp only [if_neg hxb, if_pos hba]
        · have hxa : cmp (key x) (key a) ≠ .lt := fun hlt => hba (cmp_lt_of_not_lt hxb hlt)
          simp only [if_neg hxb, if_neg hba, if_neg hxa]

/-- **The scan ends with the first of the greatest elements.** -/
theorem firstGreatest_eq_some_iff : firstGreatest cmp key l = some a ↔
    ∃ l₁ l₂, l = l₁ ++ a :: l₂ ∧ (∀ b ∈ l₁, cmp (key b) (key a) = .lt) ∧ ∀ b ∈ l₂, cmp (key a) (key b) ≠ .lt := by
  induction l generalizing a with
  | nil => simp [firstGreatest]
  | cons x l ih =>
    constructor
    · intro h
      rcases firstGreatest_cons cmp key x l with ⟨hx, hle⟩ | ⟨b, hb, hlt, hx⟩
      · cases hx.symm.trans h
        refine ⟨[], l, rfl, nofun, fun c hc hlt => ?_⟩
        cases hl : firstGreatest cmp key l with
        | none =>
          rw [firstGreatest_eq_none_iff.mp hl] at hc
          cases hc
        | some b =>
          obtain ⟨l₁, l₂, rfl, hbefore, hafter⟩ := ih.mp hl
          rcases List.mem_append.mp hc with hc | hc
          · exact hle b hl (cmp_lt_trans hlt (hbefore c hc))
          · rcases List.mem_cons.mp hc with rfl | hc
            · exact hle c hl hlt
            · exact hafter c hc (cmp_lt_of_not_lt (hle b hl) hlt)
      · cases hx.symm.trans h
        obtain ⟨l₁, l₂, rfl, hbefore, hafter⟩ := ih.mp hb
        exact ⟨x :: l₁, l₂, rfl, List.forall_mem_cons.mpr ⟨hlt, hbefore⟩, hafter⟩
    · rintro ⟨l₁, l₂, heq, hbefore, hafter⟩
      cases l₁ with
      | nil =>
        cases heq
        rcases firstGreatest_cons cmp key x l with ⟨hx, -⟩ | ⟨b, hb, hlt, -⟩
        · exact hx
        · obtain ⟨m₁, m₂, rfl, -⟩ := ih.mp hb
          exact absurd hlt (hafter b (by simp))
      | cons y l₁ =>
        cases heq
        exact firstGreatest_cons_of_lt (ih.mpr ⟨l₁, l₂, rfl, fun b hb => hbefore b (List.mem_cons_of_mem _ hb), hafter⟩)
          (hbefore x List.mem_cons_self)

theorem not_lt_of_firstGreatest (h : firstGreatest cmp key l = some a) {b : α} (hb : b ∈ l) :
    cmp (key a) (key b) ≠ .lt := by
  obtain ⟨l₁, l₂, rfl, hbefore, hafter⟩ := firstGreatest_eq_some_iff.mp h
  rcases List.mem_append.mp hb with hb | hb
  · exact fun hlt => cmp_lt_irrefl (cmp_lt_trans hlt (hbefore b hb))
  · rcases List.mem_cons.mp hb with rfl | hb
    · exact cmp_lt_irrefl
    · exact hafter b hb

end

end Sovereign.Lib

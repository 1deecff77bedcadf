import Mathlib

/-!
# The latest element of a scan

A scan with a slot for the latest element seen so far: an element is taken if its time is greater than
that of the slot, and the empty slot stands at zero.  So an element at zero or before is never taken,
and of elements with the same time the first one stays.

`IsLatest C best` says what the slot holds after the candidates `C`, whatever the order of the scan:
nothing, if none of them lies after zero, and else a candidate with no later one.  It is kept by one more
element (`IsLatest.later`) and by the slot of another scan (`IsLatest.merge`), so that scans in scans
compose.
-/

namespace Sovereign.Lib

section
variable {α : Type*} (time : α → Int64) {l : List α}

def slotTime : Option α → Int64
  | none => 0
  | some a => time a

def later (best : Option α) (a : α) : Option α := if slotTime time best < time a then some a else best

/-- Take what another scan has found. -/
def laterOf (best : Option α) : Option α → Option α
  | none => best
  | some a => later time best a

/-- The slot `best` holds a latest element of `C`. -/
structure IsLatest (C : Set α) (best : Option α) : Prop where
  mem : ∀ a ∈ best, a ∈ C ∧ 0 < time a
  le : ∀ c ∈ C, time c ≤ slotTime time best

variable {time} {C D : Set α} {best best' : Option α}

theorem IsLatest.empty : IsLatest time (∅ : Set α) none := ⟨by simp, by simp⟩

/-- The slot never stands before zero. -/
theorem IsLatest.slotTime_nonneg (h : IsLatest time C best) : 0 ≤ slotTime time best := by
  cases best with
  | none => exact Int64.le_refl 0
  | some a => exact Int64.le_of_lt (h.mem a rfl).2

theorem IsLatest.merge_some (h : IsLatest time C best) {a : α} (ha : a ∈ D) (hle : ∀ d ∈ D, time d ≤ time a) :
    IsLatest time (C ∪ D) (later time best a) := by
  unfold later
  split
  · next hlt =>
    refine ⟨fun b hb => ?_, fun c hc => ?_⟩
    · obtain rfl := Option.mem_some_iff.mp hb
      exact ⟨.inr ha, Int64.lt_of_le_of_lt h.slotTime_nonneg hlt⟩
    · rcases hc with hc | hc
      · exact Int64.le_trans (h.le c hc) (Int64.le_of_lt hlt)
      · exact hle c hc
  · next hnot =>
    refine ⟨fun b hb => ⟨.inl (h.mem b hb).1, (h.mem b hb).2⟩, fun c hc => ?_⟩
    rcases hc with hc | hc
    · exact h.le c hc
    · exact Int64.le_trans (hle c hc) (Int64.not_lt.mp hnot)

theorem IsLatest.later (h : IsLatest time C best) (a : α) : IsLatest time (C ∪ {a}) (later time best a) :=
  h.merge_some rfl (by rintro d rfl; exact Int64.le_refl _)

theorem IsLatest.merge (h : IsLatest time C best) (h' : IsLatest time D best') :
    IsLatest time (C ∪ D) (laterOf time best best') := by
  cases best' with
  | none =>
    refine ⟨fun b hb => ⟨.inl (h.mem b hb).1, (h.mem b hb).2⟩, fun c hc => ?_⟩
    rcases hc with hc | hc
    · exact h.le c hc
    · exact Int64.le_trans (h'.le c hc) h.slotTime_nonneg
  | some a => exact h.merge_some (h'.mem a rfl).1 h'.le

theorem IsLatest.laterOf_none (h : IsLatest time C best) : laterOf time none best = best := by
  cases best with
  | none => rfl
  | some a => exact if_pos (h.mem a rfl).2

theorem IsLatest.exists_ge (h : IsLatest time C best) {c : α} (hc : c ∈ C) (hpos : 0 < time c) :
    ∃ b ∈ best, b ∈ C ∧ time c ≤ time b := by
  cases best with
  | none => exact absurd (Int64.lt_of_lt_of_le hpos (h.le c hc)) Int64.lt_irrefl
  | some b => exact ⟨b, rfl, (h.mem b rfl).1, h.le c hc⟩

theorem IsLatest.congr_pos (h : IsLatest time C best) (hiff : ∀ a, 0 < time a → (a ∈ C ↔ a ∈ D)) :
    IsLatest time D best := by
  refine ⟨fun a ha => ⟨(hiff a (h.mem a ha).2).mp (h.mem a ha).1, (h.mem a ha).2⟩, fun d hd => ?_⟩
  by_cases hpos : 0 < time d
  · exact h.le d ((hiff d hpos).mpr hd)
  · exact Int64.le_trans (Int64.not_lt.mp hpos) h.slotTime_nonneg

/-- Where no two elements have the same time, the latest one is unique. -/
theorem IsLatest.unique (h : IsLatest time C best) (h' : IsLatest time C best')
    (hties : ∀ a ∈ C, ∀ b ∈ C, 0 < time a → time a = time b → a = b) : best = best' := by
  cases best with
  | none =>
    cases best' with
    | none => rfl
    | some b =>
      obtain ⟨hb, hpos⟩ := h'.mem b rfl
      exact absurd (Int64.lt_of_lt_of_le hpos (h.le b hb)) Int64.lt_irrefl
  | some a =>
    obtain ⟨ha, hpos⟩ := h.mem a rfl
    obtain ⟨b, rfl, hb, hab⟩ := h'.exists_ge ha hpos
    rw [hties a ha b hb hpos (Int64.le_antisymm hab (h.le b hb))]

/-- The rule for a scan: each step takes the candidates it stands for into account. -/
theorem isLatest_foldl {κ : Type*} (step : Option α → κ → Option α) (D : κ → Set α)
    (hstep : ∀ C best k, IsLatest time C best → IsLatest time (C ∪ D k) (step best k)) (keys : List κ)
    (h : IsLatest time C best) : IsLatest time (C ∪ {a | ∃ k ∈ keys, a ∈ D k}) (keys.foldl step best) := by
  induction keys generalizing C best with
  | nil => simpa using h
  | cons k keys ih =>
    have hset : C ∪ {a | ∃ k' ∈ k :: keys, a ∈ D k'} = C ∪ D k ∪ {a | ∃ k' ∈ keys, a ∈ D k'} := by
      ext a
      simp [or_assoc]
    rw [List.foldl_cons, hset]
    exact ih (hstep C best k h)

variable (time) in
theorem isLatest_foldl_later (l : List α) : IsLatest time {a | a ∈ l} (l.foldl (Lib.later time) none) := by
  have hscan := isLatest_foldl (Lib.later time) (fun a => {a}) (fun _ _ a h => h.later a) l
    IsLatest.empty
  simpa using hscan

theorem foldl_later_of_le {a : α} (hle : ∀ b ∈ l, time b ≤ time a) :
    l.foldl (Lib.later time) (some a) = some a := by
  induction l with
  | nil => rfl
  | cons b l ih =>
    have hnot : ¬ slotTime time (some a) < time b := Int64.not_lt.mpr (hle b List.mem_cons_self)
    rw [List.foldl_cons, Lib.later, if_neg hnot]
    exact ih fun b hb => hle b (List.mem_cons_of_mem _ hb)

/-- **A scan ends with the first of the latest elements.** -/
theorem foldl_later_eq_some_iff {a : α} : l.foldl (Lib.later time) none = some a ↔
      ∃ l₁ l₂, l = l₁ ++ a :: l₂ ∧ 0 < time a ∧ (∀ b ∈ l₁, time b < time a) ∧ ∀ b ∈ l₂, time b ≤ time a := by
  constructor
  · intro h
    induction l using List.reverseRecOn generalizing a with
    | nil => cases h
    | append_singleton l x ih =>
      have hscan := isLatest_foldl_later time l
      rw [List.foldl_append, List.foldl_cons, List.foldl_nil, Lib.later] at h
      split at h
      · next hlt =>
        cases h
        exact ⟨l, [], rfl, Int64.lt_of_le_of_lt hscan.slotTime_nonneg hlt,
          fun b hb => Int64.lt_of_le_of_lt (hscan.le b hb) hlt, nofun⟩
      · next hnot =>
        obtain ⟨l₁, l₂, rfl, hpos, hbefore, hafter⟩ := ih h
        rw [h] at hnot
        refine ⟨l₁, l₂ ++ [x], by simp, hpos, hbefore, fun b hb => ?_⟩
        rcases List.mem_append.mp hb with hb | hb
        · exact hafter b hb
        · rw [List.mem_singleton.mp hb]
          exact Int64.not_lt.mp hnot
  · rintro ⟨l₁, l₂, rfl, hpos, hbefore, hafter⟩
    have hscan := isLatest_foldl_later time l₁
    have hlt : slotTime time (l₁.foldl (Lib.later time) none) < time a := by
      cases hbest : l₁.foldl (Lib.later time) none with
      | none => exact hpos
      | some b => exact hbefore b (hscan.mem b hbest).1
    rw [List.foldl_append, List.foldl_cons, Lib.later, if_pos hlt, foldl_later_of_le hafter]

/-- Dropping elements other than the one a scan ends with does not change the scan. -/
theorem foldl_later_filter {p : α → Bool} (hp : ∀ a ∈ l.foldl (Lib.later time) none, p a = true) :
    (l.filter p).foldl (Lib.later time) none = l.foldl (Lib.later time) none := by
  cases hscan : l.foldl (Lib.later time) none with
  | some a =>
    obtain ⟨l₁, l₂, rfl, hpos, hbefore, hafter⟩ := foldl_later_eq_some_iff.mp hscan
    refine foldl_later_eq_some_iff.mpr ⟨l₁.filter p, l₂.filter p, ?_, hpos,
      fun b hb => hbefore b (List.mem_of_mem_filter hb), fun b hb => hafter b (List.mem_of_mem_filter hb)⟩
    rw [List.filter_append, List.filter_cons_of_pos (hp a hscan)]
  | none =>
    cases hfilter : (l.filter p).foldl (Lib.later time) none with
    | none => rfl
    | some b =>
      obtain ⟨hb, hpos⟩ := (isLatest_foldl_later time (l.filter p)).mem b hfilter
      have hle := (isLatest_foldl_later time l).le b (List.mem_of_mem_filter hb)
      rw [hscan] at hle
      exact absurd (Int64.lt_of_lt_of_le hpos hle) Int64.lt_irrefl

/-- A step that takes an element if it passes a filter. -/
theorem IsLatest.later_if (h : IsLatest time C best) (p : α → Bool) (a : α) :
    IsLatest time (C ∪ {b | b = a ∧ p b = true}) (if p a then Lib.later time best a else best) := by
  split
  · next hp =>
    rw [show {b | b = a ∧ p b = true} = {a} by ext b; simp; rintro rfl; exact hp]
    exact h.later a
  · next hp =>
    rw [show {b | b = a ∧ p b = true} = ∅ by ext b; simp; rintro rfl; simpa using hp, Set.union_empty]
    exact h

end

end Sovereign.Lib

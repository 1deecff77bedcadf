import Sovereign.Database.Window

/-!
# `CoalesceRange`

The optional pass over the rows of a `Range`: sort them by the start of their valid time, the latest
system time first among equal starts, and keep the first row of every start.

* `mem_coalesceRange` — it keeps of each start the row with the latest system time;
* the row that is in effect at a valid time (`InEffect`) is the same before and after for **all** times
  iff a row that gives way to a later one with its start is covered at each of its points by a later row
  (`ReplacedCovered`).  A row that ends after the one which replaces it is lost for the points in between.
-/

namespace Sovereign.Database

open Lib Sync

/-! ### The pass -/

/-- The order of the sort: the start of the valid time, then the latest system time first. -/
def coalesceOrder (a b : TriTemporalEvent) : Ordering :=
  (compare a.validTimeStart b.validTimeStart).then (compare b.systemTime a.systemTime)

instance : Std.TransCmp coalesceOrder :=
  inferInstanceAs (Std.TransCmp (compareLex (compareOn TriTemporalEvent.validTimeStart)
    fun a b => compareOn TriTemporalEvent.systemTime b a))

/-- The loop of `CoalesceRange`: `lastStart` is the start of the row kept last. -/
def keepStarts : Option Int64 → List TriTemporalEvent → List TriTemporalEvent
  | _, [] => []
  | lastStart, r :: rows =>
    if lastStart = some r.validTimeStart then keepStarts lastStart rows
    else r :: keepStarts (some r.validTimeStart) rows

def coalesceRange (rows : List TriTemporalEvent) : List TriTemporalEvent :=
  if rows.length ≤ 1 then rows else keepStarts none (sortBy coalesceOrder id rows)

def TriTemporalEvent.Covers (ev : TriTemporalEvent) (v : Int64) : Prop := ev.validTimeStart ≤ v ∧ v < ev.validTimeEnd

/-- The row is in effect at a point: it has the latest system time of those that cover it. -/
def InEffect (rows : List TriTemporalEvent) (v : Int64) (ev : TriTemporalEvent) : Prop :=
  ev ∈ rows ∧ ev.Covers v ∧ ∀ ev' ∈ rows, ev'.Covers v → ev'.systemTime ≤ ev.systemTime

/-- The row comes first: it starts earlier, or at the same time and is later. -/
def Precedes (a b : TriTemporalEvent) : Prop :=
  a.validTimeStart < b.validTimeStart ∨ a.validTimeStart = b.validTimeStart ∧ b.systemTime < a.systemTime

/-- No row with the same start is later. -/
def LatestOfStart (rows : List TriTemporalEvent) (ev : TriTemporalEvent) : Prop :=
  ∀ ev' ∈ rows, ev'.validTimeStart = ev.validTimeStart → ev'.systemTime ≤ ev.systemTime

/-! ### What it keeps -/

section
variable {rows : List TriTemporalEvent} {ev : TriTemporalEvent}

theorem coalesceOrder_ne_gt {a b : TriTemporalEvent} (h : coalesceOrder a b ≠ .gt) :
    a.validTimeStart < b.validTimeStart ∨
      a.validTimeStart = b.validTimeStart ∧ b.systemTime ≤ a.systemTime := by
  rw [coalesceOrder] at h
  cases hstart : compare a.validTimeStart b.validTimeStart with
  | lt => exact .inl (Std.compare_eq_lt.mp hstart)
  | eq =>
    rw [hstart] at h
    refine .inr ⟨Std.LawfulEqCmp.eq_of_compare hstart, Int64.not_lt.mp fun hlt => h ?_⟩
    exact Std.compare_eq_gt.mpr hlt
  | gt =>
    rw [hstart] at h
    exact absurd rfl h

/-- Where no two rows have the same system time, the sort is strict. -/
theorem precedes_sortBy (hdistinct : (rows.map TriTemporalEvent.systemTime).Nodup) :
    (sortBy coalesceOrder id rows).Pairwise Precedes := by
  have hperm : (sortBy coalesceOrder id rows).Perm rows := sortBy_perm rows
  have hne : (sortBy coalesceOrder id rows).Pairwise fun a b => a.systemTime ≠ b.systemTime :=
    List.pairwise_map.mp ((hperm.map _).nodup_iff.mpr hdistinct)
  refine (weaklyAscending_sortBy rows).imp₂ (fun {a b} hle hneq => ?_) hne
  rcases coalesceOrder_ne_gt hle with hlt | ⟨heq, hsys⟩
  · exact .inl hlt
  · exact .inr ⟨heq, Int64.lt_of_le_of_ne hsys (Ne.symm hneq)⟩

theorem keepStarts_sublist (lastStart : Option Int64) (rows : List TriTemporalEvent) :
    (keepStarts lastStart rows).Sublist rows := by
  induction rows generalizing lastStart with
  | nil => exact List.Sublist.refl _
  | cons r rows ih =>
    rw [keepStarts]
    split
    · exact (ih lastStart).cons r
    · exact (ih _).cons_cons r

/-- The loop over sorted rows keeps the latest row of each start that is new to it. -/
theorem mem_keepStarts {lastStart : Option Int64} (hrows : rows.Pairwise Precedes)
    (hlast : ∀ s ∈ lastStart, ∀ r ∈ rows, s ≤ r.validTimeStart) :
    ev ∈ keepStarts lastStart rows ↔ ev ∈ rows ∧ lastStart ≠ some ev.validTimeStart ∧ LatestOfStart rows ev := by
  induction rows generalizing lastStart with
  | nil => simp [keepStarts]
  | cons r rows ih =>
    obtain ⟨hfirst, hrest⟩ := List.pairwise_cons.mp hrows
    have hstart : ∀ r' ∈ rows, r.validTimeStart ≤ r'.validTimeStart := fun r' hr' => by
      rcases hfirst r' hr' with hlt | ⟨heq, -⟩
      · exact Int64.le_of_lt hlt
      · exact heq ▸ Int64.le_refl _
    -- of the rows with the start of the first one, the first one is the latest
    have hlatest : LatestOfStart (r :: rows) r := by
      intro r' hr' heq
      rcases List.mem_cons.mp hr' with rfl | hr'
      · exact Int64.le_refl _
      · rcases hfirst r' hr' with hlt | ⟨-, hsys⟩
        · rw [heq] at hlt
          exact absurd hlt Int64.lt_irrefl
        · exact Int64.le_of_lt hsys
    -- a row behind it with its start is not
    have hbehind : ∀ r' ∈ rows, LatestOfStart (r :: rows) r' ↔
        r'.validTimeStart ≠ r.validTimeStart ∧ LatestOfStart rows r' := by
      intro r' hr'
      constructor
      · intro hall
        refine ⟨fun heq => ?_, fun r'' hr'' => hall r'' (List.mem_cons_of_mem _ hr'')⟩
        have hle := hall r List.mem_cons_self heq.symm
        rcases hfirst r' hr' with hlt | ⟨-, hsys⟩
        · rw [heq] at hlt
          exact Int64.lt_irrefl hlt
        · exact Int64.lt_irrefl (Int64.lt_of_lt_of_le hsys hle)
      · rintro ⟨hne, hall⟩ r'' hr'' heq
        rcases List.mem_cons.mp hr'' with rfl | hr''
        · exact absurd heq.symm hne
        · exact hall r'' hr'' heq
    have hih : ∀ {last : Option Int64}, (∀ s ∈ last, ∀ r' ∈ rows, s ≤ r'.validTimeStart) →
        (ev ∈ keepStarts last rows ↔ ev ∈ rows ∧ last ≠ some ev.validTimeStart ∧ LatestOfStart rows ev) :=
      ih hrest
    rw [keepStarts]
    split
    · next hseen =>
      rw [hih fun s hs r' hr' => hlast s hs r' (List.mem_cons_of_mem _ hr'), hseen]
      constructor
      · rintro ⟨hev, hnew, hall⟩
        have hne : ev.validTimeStart ≠ r.validTimeStart := fun heq => hnew (congrArg some heq.symm)
        exact ⟨List.mem_cons_of_mem _ hev, hnew, (hbehind ev hev).mpr ⟨hne, hall⟩⟩
      · rintro ⟨hev, hnew, hall⟩
        rcases List.mem_cons.mp hev with rfl | hev
        · exact absurd rfl hnew
        · exact ⟨hev, hnew, ((hbehind ev hev).mp hall).2⟩
    · next hnew =>
      rw [List.mem_cons, hih fun s hs r' hr' => Option.some.inj hs ▸ hstart r' hr']
      constructor
      · rintro (rfl | ⟨hev, hne, hall⟩)
        · exact ⟨List.mem_cons_self, hnew, hlatest⟩
        · have hne' : ev.validTimeStart ≠ r.validTimeStart := fun heq => hne (congrArg some heq.symm)
          refine ⟨List.mem_cons_of_mem _ hev, fun hseen => hne' ?_, (hbehind ev hev).mpr ⟨hne', hall⟩⟩
          exact Int64.le_antisymm (hlast _ hseen r List.mem_cons_self) (hstart ev hev)
      · rintro ⟨hev, -, hall⟩
        rcases List.mem_cons.mp hev with rfl | hev
        · exact .inl rfl
        · obtain ⟨hne, hall⟩ := (hbehind ev hev).mp hall
          exact .inr ⟨hev, fun heq => hne (Option.some.inj heq).symm, hall⟩

/-- **`CoalesceRange` keeps of each start the row with the latest system time.** -/
theorem mem_coalesceRange (hdistinct : (rows.map TriTemporalEvent.systemTime).Nodup) :
    ev ∈ coalesceRange rows ↔ ev ∈ rows ∧ LatestOfStart rows ev := by
  rw [coalesceRange]
  split
  · next hshort =>
    refine ⟨fun hev => ⟨hev, fun ev' hev' _ => ?_⟩, fun h => h.1⟩
    rcases Nat.le_one_iff_eq_zero_or_eq_one.mp hshort with hnil | hone
    · rw [List.length_eq_zero_iff.mp hnil] at hev
      cases hev
    · obtain ⟨r, rfl⟩ := List.length_eq_one_iff.mp hone
      rw [List.mem_singleton.mp hev, List.mem_singleton.mp hev']
      exact Int64.le_refl _
  · have hperm : (sortBy coalesceOrder id rows).Perm rows := sortBy_perm rows
    rw [mem_keepStarts (precedes_sortBy hdistinct) (fun s hs => by cases hs), hperm.mem_iff]
    have hlatest : LatestOfStart (sortBy coalesceOrder id rows) ev ↔ LatestOfStart rows ev :=
      forall_congr' fun ev' => by rw [hperm.mem_iff]
    rw [hlatest]
    exact and_congr_right fun _ => and_iff_right fun h => by cases h

theorem coalesceRange_ascending (hdistinct : (rows.map TriTemporalEvent.systemTime).Nodup) :
    (coalesceRange rows).Pairwise fun a b => a.validTimeStart < b.validTimeStart := by
  have hprecedes : (coalesceRange rows).Pairwise Precedes := by
    rw [coalesceRange]
    split
    · next hshort =>
      rcases Nat.le_one_iff_eq_zero_or_eq_one.mp hshort with hnil | hone
      · rw [List.length_eq_zero_iff.mp hnil]
        exact List.Pairwise.nil
      · obtain ⟨r, rfl⟩ := List.length_eq_one_iff.mp hone
        exact List.pairwise_singleton _ r
    · exact (precedes_sortBy hdistinct).sublist (keepStarts_sublist none _)
  refine hprecedes.imp_of_mem fun {a b} ha hb hab => ?_
  rcases hab with hlt | ⟨heq, hsys⟩
  · exact hlt
  · have hle := ((mem_coalesceRange hdistinct).mp hb).2 a ((mem_coalesceRange hdistinct).mp ha).1 heq
    exact absurd (Int64.lt_of_lt_of_le hsys hle) Int64.lt_irrefl

/-! ### Answers at a point -/

/-- Every row that gives way to a later one with its start is covered at each of its points by a later row. -/
def ReplacedCovered (rows : List TriTemporalEvent) : Prop :=
  ∀ r ∈ rows, ¬ LatestOfStart rows r → ∀ v, r.Covers v → ∃ r' ∈ rows, r'.Covers v ∧ r.systemTime < r'.systemTime

theorem InEffect.of_subset {kept : List TriTemporalEvent} {v : Int64} (h : InEffect rows v ev) (hsub : kept ⊆ rows)
    (hev : ev ∈ kept) : InEffect kept v ev :=
  ⟨hev, h.2.1, fun ev' hev' => h.2.2 ev' (hsub hev')⟩

theorem exists_inEffect {v : Int64} (hev : ev ∈ rows) (hv : ev.Covers v) :
    ∃ best, InEffect rows v best ∧ ev.systemTime ≤ best.systemTime := by
  classical
  obtain ⟨best, hbest, hmax⟩ := Finset.exists_max_image (rows.toFinset.filter (·.Covers v))
    (fun ev => ev.systemTime.toInt) ⟨ev, Finset.mem_filter.mpr ⟨List.mem_toFinset.mpr hev, hv⟩⟩
  have hle : ∀ ev' ∈ rows, ev'.Covers v → ev'.systemTime ≤ best.systemTime := fun ev' hev' hv' =>
    Int64.le_iff_toInt_le.mpr (hmax ev' (Finset.mem_filter.mpr ⟨List.mem_toFinset.mpr hev', hv'⟩))
  obtain ⟨hmem, hcovers⟩ := Finset.mem_filter.mp hbest
  exact ⟨best, ⟨List.mem_toFinset.mp hmem, hcovers, hle⟩, hle ev hev hv⟩

/-- **The answers at all points are kept iff** the rows that are dropped are covered by later ones. -/
theorem coalesceRange_answers_iff (rows : List TriTemporalEvent)
    (hdistinct : (rows.map TriTemporalEvent.systemTime).Nodup) :
    (∀ ev, ev ∈ coalesceRange rows ↔ ev ∈ rows ∧ LatestOfStart rows ev) ∧
    (coalesceRange rows).Pairwise (fun a b => a.validTimeStart < b.validTimeStart) ∧
    ((∀ v ev, InEffect (coalesceRange rows) v ev ↔ InEffect rows v ev) ↔ ReplacedCovered rows) := by
  refine ⟨fun ev => mem_coalesceRange hdistinct, coalesceRange_ascending hdistinct, ?_⟩
  have hsub : coalesceRange rows ⊆ rows := fun ev hev => ((mem_coalesceRange hdistinct).mp hev).1
  constructor
  · intro hsame r hr hnot v hv
    obtain ⟨best, hbest, hle⟩ := exists_inEffect hr hv
    refine ⟨best, hbest.1, hbest.2.1, Int64.lt_of_le_of_ne hle fun heq => hnot ?_⟩
    have hkept := ((hsame v best).mpr hbest).1
    rw [List.inj_on_of_nodup_map hdistinct hr hbest.1 heq]
    exact ((mem_coalesceRange hdistinct).mp hkept).2
  · intro hcovered v ev
    -- what is in effect among all rows is kept
    have hkept : ∀ ev, InEffect rows v ev → ev ∈ coalesceRange rows := by
      intro ev hev
      refine (mem_coalesceRange hdistinct).mpr ⟨hev.1, ?_⟩
      by_contra hnot
      obtain ⟨r', hr', hv', hlt⟩ := hcovered ev hev.1 hnot v hev.2.1
      exact Int64.lt_irrefl (Int64.lt_of_lt_of_le hlt (hev.2.2 r' hr' hv'))
    refine ⟨fun hev => ?_, fun hev => hev.of_subset hsub (hkept ev hev)⟩
    obtain ⟨best, hbest, hle⟩ := exists_inEffect (hsub hev.1) hev.2.1
    have hback := hev.2.2 best (hkept best hbest) hbest.2.1
    rwa [List.inj_on_of_nodup_map hdistinct (hsub hev.1) hbest.1 (Int64.le_antisymm hle hback)]

end

/-- Rows that replace each other with the end of their valid time. -/
theorem coalesceRange_answers_on_growing_ends :
    InEffect (coalesceRange [(sampleRow 1 0 5).toTriTemporalEvent, (sampleRow 2 0 9).toTriTemporalEvent]) 3
        (sampleRow 2 0 9).toTriTemporalEvent ↔
      InEffect [(sampleRow 1 0 5).toTriTemporalEvent, (sampleRow 2 0 9).toTriTemporalEvent] 3
        (sampleRow 2 0 9).toTriTemporalEvent := by
  refine (coalesceRange_answers_iff _ (by decide)).2.2.mpr ?_ 3 (sampleRow 2 0 9).toTriTemporalEvent
  intro r hr hnot v hv
  simp only [List.mem_cons, List.not_mem_nil, or_false] at hr
  rcases hr with rfl | rfl
  · refine ⟨(sampleRow 2 0 9).toTriTemporalEvent, by simp, ⟨hv.1, ?_⟩, by decide⟩
    exact Int64.lt_of_lt_of_le hv.2 (by decide)
  · refine absurd (fun r hr _ => ?_) hnot
    simp only [List.mem_cons, List.not_mem_nil, or_false] at hr
    rcases hr with rfl | rfl
    · decide
    · decide

/-- **A row that ends early hides the end of the row it replaces**: at 7 the first row is in effect, and after the
pass none is. -/
theorem replaced_row_is_lost :
    InEffect [(sampleRow 1 0 9).toTriTemporalEvent, (sampleRow 2 0 5).toTriTemporalEvent] 7
      (sampleRow 1 0 9).toTriTemporalEvent ∧
    ∀ ev, ¬ InEffect (coalesceRange [(sampleRow 1 0 9).toTriTemporalEvent, (sampleRow 2 0 5).toTriTemporalEvent])
      7 ev := by
  have hkept : coalesceRange [(sampleRow 1 0 9).toTriTemporalEvent, (sampleRow 2 0 5).toTriTemporalEvent] =
      [(sampleRow 2 0 5).toTriTemporalEvent] := by decide +kernel
  constructor
  · refine ⟨by simp, ⟨by decide, by decide⟩, fun ev hev hcov => ?_⟩
    simp only [List.mem_cons, List.not_mem_nil, or_false] at hev
    rcases hev with rfl | rfl
    · exact Int64.le_refl _
    · exact absurd hcov.2 (by decide)
  · rintro ev ⟨hev, hcov, -⟩
    rw [hkept, List.mem_singleton] at hev
    subst hev
    exact absurd hcov.2 (by decide)

end Sovereign.Database

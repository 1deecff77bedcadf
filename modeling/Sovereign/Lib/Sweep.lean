import Mathlib.Data.List.Basic

/-!
# Sweeping out dominated rows

Rows have a time and a span.  A row is dominated by a later one whose time is admitted and whose span
covers it.  The rule asks for every row of the input; a sweep over the batches of equal time, from the
last to the first, asks for the spans of the rows that it has kept.

`sweep_spec` says that the two agree: a dominated row that dominates another is itself covered by a kept
one, so its span is not missed (`Swept.covered`).
-/

namespace Sovereign.Lib

/-- What a sweep is over: the times and spans of rows, and the admitted times. -/
structure Sweep (ρ τ ι : Type*) where
  time : ρ → τ
  before : τ → τ → Bool
  admits : τ → Bool
  span : ρ → ι
  covered : ρ → ι → Bool
  before_asymm : ∀ {a b}, before a b = true → before b a = false
  covered_self : ∀ r, covered r (span r) = true
  covered_trans : ∀ {r r' r''}, covered r (span r') = true → covered r' (span r'') = true →
    covered r (span r'') = true

namespace Sweep

variable {ρ τ ι : Type*} (S : Sweep ρ τ ι)

/-- Some later admitted row covers the row. -/
def dominated (rows : List ρ) (r : ρ) : Bool :=
  rows.any fun d => S.before (S.time r) (S.time d) && S.admits (S.time d) && S.covered r (S.span d)

/-- One batch: drop its rows that a live span covers, and let the spans of the others join if the time of
the batch is admitted. -/
def batch (b : τ × List ρ) (swept : List ι × List ρ) : List ι × List ρ :=
  let survivors := b.2.filter fun r => !swept.1.any (S.covered r)
  (if S.admits b.1 then swept.1 ++ survivors.map S.span else swept.1, survivors ++ swept.2)

/-- What a sweep has after some batches. -/
structure Swept (rows : List ρ) (swept : List ι × List ρ) : Prop where
  kept : swept.2 = rows.filter fun r => !S.dominated rows r
  live : ∀ i, i ∈ swept.1 ↔ ∃ r ∈ swept.2, S.admits (S.time r) = true ∧ S.span r = i
  /-- A row with an admitted time is covered by a kept one. -/
  covered : ∀ r ∈ rows, S.admits (S.time r) = true → ∃ i ∈ swept.1, S.covered r i = true

/-- The batches of a sweep: each has the rows of its time, and the times ascend. -/
structure Batches (bs : List (τ × List ρ)) : Prop where
  time : ∀ b ∈ bs, ∀ r ∈ b.2, S.time r = b.1
  ascending : bs.Pairwise fun b b' => S.before b.1 b'.1 = true

variable {S} {rows : List ρ} {r : ρ}

theorem before_irrefl (a : τ) : S.before a a = false := by
  cases h : S.before a a with
  | false => rfl
  | true =>
    have hback := S.before_asymm h
    rw [h] at hback
    cases hback

theorem dominated_iff : S.dominated rows r = true ↔
    ∃ d ∈ rows, S.before (S.time r) (S.time d) = true ∧ S.admits (S.time d) = true ∧
      S.covered r (S.span d) = true := by
  rw [dominated, List.any_eq_true]
  simp only [Bool.and_eq_true, and_assoc]

theorem dominated_append (rows rows' : List ρ) :
    S.dominated (rows ++ rows') r = (S.dominated rows r || S.dominated rows' r) := List.any_append

section
variable {b : τ × List ρ} {swept : List ι × List ρ} (h : S.Swept rows swept)
  (htime : ∀ r ∈ b.2, S.time r = b.1) (hlater : ∀ r ∈ rows, S.before b.1 (S.time r) = true)
include h htime hlater

/-- In the batch, dominated means covered by a live span. -/
theorem Swept.dominated_batch (hr : r ∈ b.2) : S.dominated (b.2 ++ rows) r = swept.1.any (S.covered r) := by
  rw [Bool.eq_iff_iff, dominated_iff, List.any_eq_true]
  constructor
  · rintro ⟨d, hd, hbefore, hadm, hcov⟩
    have hd : d ∈ rows := by
      refine (List.mem_append.mp hd).resolve_left fun hin => ?_
      rw [htime r hr, htime d hin, before_irrefl] at hbefore
      cases hbefore
    obtain ⟨i, hi, hcov'⟩ := h.covered d hd hadm
    obtain ⟨r', -, -, rfl⟩ := (h.live i).mp hi
    exact ⟨_, hi, S.covered_trans hcov hcov'⟩
  · rintro ⟨i, hi, hcov⟩
    obtain ⟨d, hd, hadm, rfl⟩ := (h.live i).mp hi
    rw [h.kept] at hd
    have hd := List.mem_of_mem_filter hd
    exact ⟨d, List.mem_append_right _ hd, htime r hr ▸ hlater d hd, hadm, hcov⟩

omit h in
/-- Behind it, the batch dominates nothing. -/
theorem dominated_behind (hr : r ∈ rows) : S.dominated (b.2 ++ rows) r = S.dominated rows r := by
  have hnone : S.dominated b.2 r = false := by
    rw [Bool.eq_false_iff, Ne, dominated_iff]
    rintro ⟨d, hd, hbefore, -⟩
    rw [htime d hd, S.before_asymm (hlater r hr)] at hbefore
    cases hbefore
  rw [dominated_append, hnone, Bool.false_or]

theorem Swept.kept_batch : (S.batch b swept).2 = (b.2 ++ rows).filter fun r => !S.dominated (b.2 ++ rows) r := by
  show b.2.filter (fun r => !swept.1.any (S.covered r)) ++ swept.2 = _
  rw [List.filter_append, h.kept]
  congr 1
  · exact List.filter_congr fun r hr => by rw [h.dominated_batch htime hlater hr]
  · exact List.filter_congr fun r hr => by rw [dominated_behind htime hlater hr]

omit hlater in
theorem Swept.live_batch (i : ι) : i ∈ (S.batch b swept).1 ↔
    ∃ r ∈ (S.batch b swept).2, S.admits (S.time r) = true ∧ S.span r = i := by
  simp only [batch, List.mem_append]
  split
  · next hadm =>
    rw [List.mem_append, h.live, List.mem_map]
    constructor
    · rintro (⟨r, hr, hri⟩ | ⟨r, hr, rfl⟩)
      · exact ⟨r, .inr hr, hri⟩
      · exact ⟨r, .inl hr, htime r (List.mem_of_mem_filter hr) ▸ hadm, rfl⟩
    · rintro ⟨r, hr | hr, hadm, rfl⟩
      · exact .inr ⟨r, hr, rfl⟩
      · exact .inl ⟨r, hr, hadm, rfl⟩
  · next hnot =>
    rw [h.live]
    constructor
    · rintro ⟨r, hr, hri⟩
      exact ⟨r, .inr hr, hri⟩
    · rintro ⟨r, hr | hr, hadm, rfl⟩
      · exact absurd (htime r (List.mem_of_mem_filter hr) ▸ hadm) hnot
      · exact ⟨r, hr, hadm, rfl⟩

/-- **One batch more.** -/
theorem Swept.batch : S.Swept (b.2 ++ rows) (S.batch b swept) := by
  have hlive := h.live_batch htime
  have hmono : ∀ {i}, i ∈ swept.1 → i ∈ (S.batch b swept).1 := by
    intro i hi
    obtain ⟨r, hr, hri⟩ := (h.live i).mp hi
    exact (hlive i).mpr ⟨r, List.mem_append_right _ hr, hri⟩
  refine ⟨h.kept_batch htime hlater, hlive, fun r hr hadm => ?_⟩
  rcases List.mem_append.mp hr with hin | hin
  · cases hdom : swept.1.any (S.covered r) with
    | true =>
      obtain ⟨i, hi, hcov⟩ := List.any_eq_true.mp hdom
      exact ⟨i, hmono hi, hcov⟩
    | false =>
      refine ⟨S.span r, (hlive _).mpr ⟨r, ?_, hadm, rfl⟩, S.covered_self r⟩
      exact List.mem_append_left _ (List.mem_filter.mpr ⟨hin, by rw [hdom]; rfl⟩)
  · obtain ⟨i, hi, hcov⟩ := h.covered r hin hadm
    exact ⟨i, hmono hi, hcov⟩

end

/-- **What the sweep comes to**: the rows that no row of the input dominates. -/
theorem sweep_spec {bs : List (τ × List ρ)} (hbs : S.Batches bs) :
    S.Swept (bs.flatMap Prod.snd) (bs.foldr S.batch ([], [])) := by
  induction bs with
  | nil => exact ⟨rfl, fun i => by simp, fun r hr => by cases hr⟩
  | cons b bs ih =>
    obtain ⟨htimes, hasc⟩ := hbs
    obtain ⟨hfirst, hasc⟩ := List.pairwise_cons.mp hasc
    rw [List.flatMap_cons, List.foldr_cons]
    refine (ih ⟨fun b' hb' => htimes b' (List.mem_cons_of_mem _ hb'), hasc⟩).batch
      (htimes b List.mem_cons_self) fun r hr => ?_
    obtain ⟨b', hb', hr⟩ := List.mem_flatMap.mp hr
    rw [htimes b' (List.mem_cons_of_mem _ hb') r hr]
    exact hfirst b' hb'

end Sweep

end Sovereign.Lib

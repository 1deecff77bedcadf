import Mathlib

/-!
# Linear sketches that can be peeled

A sketch stores a set of keys as a table of cells in a commutative group: a key adds its `unit` to
every cell of its `targets`.  Tables subtract cell by cell, so the difference of two sketches
is the table of the keys only one side has (`load_sub_load`), those of the second side
counted negatively; `residue A B` is that table.

Peeling takes a cell that a test `accepts` as holding one key, and removes the key from all its
cells.  The test is a checksum and may err.  `NoFalsePure A₀ B₀` says that it does not on any
part of the difference.  Then an accepted cell names a key that is really there, with its
side (`accepted_cases`), and a zero cell has no keys: the checksum of the rest of a zero cell
would be that of the key left out (`no_occupant_of_zero`).
-/

namespace Sovereign.Lib

/-- How keys are written into cells, and the test for a cell with a single key. -/
structure Sketch (κ M : Type*) [AddCommGroup M] where
  unit : κ → M
  targets : κ → List ℕ
  targets_ne_nil : ∀ x, targets x ≠ []
  accepts : M → Prop
  accepts_unit : ∀ x, accepts (unit x)
  accepts_neg_unit : ∀ x, accepts (-unit x)
  unit_injective : Function.Injective unit
  unit_ne_neg_unit : ∀ x y, unit x ≠ -unit y

namespace Sketch

variable {κ M : Type*} [AddCommGroup M] (S : Sketch κ M) {i : ℕ} {x : κ}

def share (x : κ) (i : ℕ) : M := if i ∈ S.targets x then S.unit x else 0

def load (A : List κ) (i : ℕ) : M := (A.map fun x => S.share x i).sum

def residue (A B : List κ) (i : ℕ) : M := S.load A i - S.load B i

/-- The test accepts no cell of any part of the difference that holds other than one key. -/
def NoFalsePure (A₀ B₀ : List κ) : Prop :=
  ∀ A B : List κ, A.Nodup → B.Nodup → A ⊆ A₀ → B ⊆ B₀ → ∀ i, S.accepts (S.residue A B i) →
    ∃! x, x ∈ A ++ B ∧ i ∈ S.targets x

variable {S}

@[simp] theorem load_nil (i : ℕ) : S.load [] i = 0 := rfl

@[simp] theorem load_cons (x : κ) (A : List κ) (i : ℕ) :
    S.load (x :: A) i = S.share x i + S.load A i := rfl

theorem load_append (A B : List κ) (i : ℕ) : S.load (A ++ B) i = S.load A i + S.load B i := by
  simp [load]

theorem load_perm {A B : List κ} (h : A.Perm B) (i : ℕ) : S.load A i = S.load B i :=
  (h.map _).sum_eq

theorem load_eq_zero {A : List κ} (h : ∀ x ∈ A, i ∉ S.targets x) : S.load A i = 0 := by
  induction A with
  | nil => rfl
  | cons x A ih =>
    rw [load_cons, ih fun y hy => h y (List.mem_cons_of_mem _ hy), share,
      if_neg (h x List.mem_cons_self), add_zero]

variable [DecidableEq κ]

theorem load_erase {A : List κ} (hx : x ∈ A) (i : ℕ) : S.load (A.erase x) i = S.load A i - S.share x i := by
  rw [load_perm (List.perm_cons_erase hx), load_cons, add_sub_cancel_left]

theorem residue_erase_left {A : List κ} (hx : x ∈ A) (B : List κ) (i : ℕ) :
    S.residue (A.erase x) B i = S.residue A B i - S.share x i := by
  rw [residue, load_erase hx, residue]
  abel

theorem residue_erase_right {B : List κ} (hx : x ∈ B) (A : List κ) (i : ℕ) :
    S.residue A (B.erase x) i = S.residue A B i + S.share x i := by
  rw [residue, load_erase hx, residue]
  abel

/-- The difference of two sketches is that of the keys on one side only. -/
theorem load_sub_load {A B : List κ} (hA : A.Nodup) (hB : B.Nodup) (i : ℕ) :
    S.load A i - S.load B i
      = S.residue (A.filter (· ∉ B)) (B.filter (· ∉ A)) i := by
  have hcommon : (A.filter (· ∈ B)).Perm (B.filter (· ∈ A)) := by
    refine (List.perm_ext_iff_of_nodup (hA.filter _) (hB.filter _)).mpr fun x => ?_
    simp [and_comm]
  have hsplit : ∀ C D : List κ, S.load C i
      = S.load (C.filter (· ∈ D)) i + S.load (C.filter (· ∉ D)) i := by
    intro C D
    rw [← load_append]
    refine load_perm ?_ i
    simpa using (List.filter_append_perm (fun x => decide (x ∈ D)) C).symm
  rw [hsplit A B, hsplit B A, load_perm hcommon, residue]
  abel

/-! ### Cells with one key -/

/-- A cell whose only key is `x`, from the positive side. -/
theorem load_eq_unit {A : List κ} (hA : A.Nodup) (hx : x ∈ A)
    (hi : i ∈ S.targets x) (huniq : ∀ y ∈ A, i ∈ S.targets y → y = x) : S.load A i = S.unit x := by
  have hrest : S.load (A.erase x) i = 0 := load_eq_zero fun y hy hiy =>
    (hA.mem_erase_iff.mp hy).1 (huniq y (hA.mem_erase_iff.mp hy).2 hiy)
  rw [load_erase hx, share, if_pos hi, sub_eq_zero] at hrest
  exact hrest

/-- Part of a difference: what is left of its two sides, which have nothing in common. -/
structure PartOf (A₀ B₀ A B : List κ) : Prop where
  disjoint : A₀.Disjoint B₀
  nodup_left : A.Nodup
  nodup_right : B.Nodup
  left : A ⊆ A₀
  right : B ⊆ B₀

section
variable {A₀ B₀ A B : List κ}

theorem PartOf.erase_left (h : PartOf A₀ B₀ A B) (x : κ) : PartOf A₀ B₀ (A.erase x) B :=
  ⟨h.disjoint, h.nodup_left.erase x, h.nodup_right,
    fun _ hy => h.left (List.mem_of_mem_erase hy), h.right⟩

theorem PartOf.erase_right (h : PartOf A₀ B₀ A B) (x : κ) : PartOf A₀ B₀ A (B.erase x) :=
  ⟨h.disjoint, h.nodup_left, h.nodup_right.erase x, h.left,
    fun _ hy => h.right (List.mem_of_mem_erase hy)⟩

/-- An accepted cell of a part of the difference holds one key, on the side its sign tells. -/
theorem accepted_cases (hpure : S.NoFalsePure A₀ B₀) (h : PartOf A₀ B₀ A B)
    (hacc : S.accepts (S.residue A B i)) : (∃ x ∈ A, i ∈ S.targets x ∧ S.residue A B i = S.unit x) ∨
      ∃ x ∈ B, i ∈ S.targets x ∧ S.residue A B i = -S.unit x := by
  obtain ⟨x, ⟨hx, hi⟩, huniq⟩ := hpure A B h.nodup_left h.nodup_right h.left h.right i hacc
  have honly : ∀ y ∈ A ++ B, i ∈ S.targets y → y = x := fun y hy hiy => huniq y ⟨hy, hiy⟩
  rcases List.mem_append.mp hx with hxA | hxB
  · have hnone : S.load B i = 0 := load_eq_zero fun y hy hiy => by
      have := honly y (List.mem_append_right _ hy) hiy
      exact h.disjoint (h.left hxA) (h.right (this ▸ hy))
    refine .inl ⟨x, hxA, hi, ?_⟩
    rw [residue, hnone, sub_zero, load_eq_unit h.nodup_left hxA hi
      fun y hy => honly y (List.mem_append_left _ hy)]
  · have hnone : S.load A i = 0 := load_eq_zero fun y hy hiy => by
      have := honly y (List.mem_append_left _ hy) hiy
      exact h.disjoint (h.left (this ▸ hy)) (h.right hxB)
    refine .inr ⟨x, hxB, hi, ?_⟩
    rw [residue, hnone, zero_sub, load_eq_unit h.nodup_right hxB hi
      fun y hy => honly y (List.mem_append_right _ hy)]

theorem no_occupant_of_zero (hpure : S.NoFalsePure A₀ B₀) (h : PartOf A₀ B₀ A B)
    (hzero : S.residue A B i = 0) : ∀ y ∈ A ++ B, i ∉ S.targets y := by
  intro y hy hi
  have hshare : S.share y i = S.unit y := if_pos hi
  -- without `y` the cell looks like a cell with the one key `y` on the other side
  rcases List.mem_append.mp hy with hyA | hyB
  · have hres : S.residue (A.erase y) B i = -S.unit y := by
      rw [residue_erase_left hyA, hzero, hshare, zero_sub]
    rcases accepted_cases hpure (h.erase_left y) (hres ▸ S.accepts_neg_unit y) with
      ⟨x, -, -, hx⟩ | ⟨x, hxB, -, hx⟩
    · exact S.unit_ne_neg_unit x y (hx.symm.trans hres)
    · have hxy := S.unit_injective (neg_injective (hx.symm.trans hres))
      exact h.disjoint (h.left hyA) (h.right (hxy ▸ hxB))
  · have hres : S.residue A (B.erase y) i = S.unit y := by
      rw [residue_erase_right hyB, hzero, hshare, zero_add]
    rcases accepted_cases hpure (h.erase_right y) (hres ▸ S.accepts_unit y) with
      ⟨x, hxA, -, hx⟩ | ⟨x, -, -, hx⟩
    · have hxy := S.unit_injective (hx.symm.trans hres)
      exact h.disjoint (h.left (hxy ▸ hxA)) (h.right hyB)
    · exact S.unit_ne_neg_unit y x (hres.symm.trans hx)

end

end Sketch

end Sovereign.Lib

import Mathlib

/-!
# Runs of a deterministic component

A component takes inputs one at a time; a step may abort, and it may log what it did.  `run` feeds a
list of inputs and concatenates the logs.  `Meets G` says that every step of a run is taken in a
state and on an input that satisfy `G`.

`run_invariant` is the induction rule all run properties go through: a relation between the state
and the log so far that every step keeps holds at the end of every run.
-/

namespace Sovereign.Lib

-- the numerals for the participants of small runs go through these instances, wherever they stand
instance neZero_one : NeZero 1 := ⟨Nat.one_ne_zero⟩

instance neZero_two : NeZero 2 := ⟨Nat.succ_ne_zero 1⟩

section
variable {σ ι ο : Type*} (step : σ → ι → Option (σ × List ο))

/-- Feed a list of inputs; `none` if a step aborts. -/
def run : σ → List ι → Option (σ × List ο)
  | s, [] => some (s, [])
  | s, i :: is =>
    match step s i with
    | none => none
    | some (s', out) =>
      match run s' is with
      | none => none
      | some (s'', rest) => some (s'', out ++ rest)

/-- Every step of the run satisfies `G`. -/
def Meets (G : σ → ι → Prop) : σ → List ι → Prop
  | _, [] => True
  | s, i :: is => G s i ∧ ∀ next ∈ step s i, Meets G next.1 is

instance Meets.instDecidable {G : σ → ι → Prop} [∀ s i, Decidable (G s i)] :
    ∀ s is, Decidable (Meets step G s is)
  | _, [] => isTrue trivial
  | s, i :: is =>
    have : ∀ s', Decidable (Meets step G s' is) := fun s' => Meets.instDecidable s' is
    inferInstanceAs (Decidable (G s i ∧ ∀ next ∈ step s i, Meets step G next.1 is))

variable {step} {G : σ → ι → Prop} {s s' s'' : σ} {i : ι} {is : List ι} {out log : List ο}

theorem meets_of_forall (hG : ∀ s i, G s i) (s : σ) (is : List ι) : Meets step G s is := by
  induction is generalizing s with
  | nil => exact trivial
  | cons i is ih => exact ⟨hG s i, fun next _ => ih next.1⟩

theorem meets_cons (hi : step s i = some (s', out)) : Meets step G s (i :: is) ↔ G s i ∧ Meets step G s' is := by
  refine and_congr_right fun _ => ⟨fun hall => hall _ hi, fun hrest next hnext => ?_⟩
  rw [Option.mem_def, hi] at hnext
  cases hnext
  exact hrest

theorem run_cons_some (h : run step s (i :: is) = some (s'', log)) :
    ∃ s' out rest, step s i = some (s', out) ∧ run step s' is = some (s'', rest) ∧
      log = out ++ rest := by
  rw [run] at h
  split at h
  · cases h
  · next s' out hstep =>
    split at h
    · cases h
    · next s₂ rest hrest =>
      cases h
      exact ⟨s', out, rest, hstep, hrest, rfl⟩

theorem run_cons {rest : List ο} (hi : step s i = some (s', out))
    (his : run step s' is = some (s'', rest)) : run step s (i :: is) = some (s'', out ++ rest) := by
  rw [run, hi]
  simp only [his]

theorem run_append {js : List ι} {rest : List ο}
    (his : run step s is = some (s', out)) (hjs : run step s' js = some (s'', rest)) :
    run step s (is ++ js) = some (s'', out ++ rest) := by
  induction is generalizing s out with
  | nil =>
    cases his
    exact hjs
  | cons i is ih =>
    obtain ⟨s₁, o, out', hs, hr, rfl⟩ := run_cons_some his
    rw [List.append_assoc]
    exact run_cons hs (ih hr)

/-- What every step keeps, relating the state to the log so far, holds after every run. -/
theorem run_invariant {P : σ → List ο → Prop}
    (hstep : ∀ s log i s' out, P s log → G s i → step s i = some (s', out) → P s' (log ++ out))
    (hP : P s log) (hG : Meets step G s is) (hrun : run step s is = some (s', out)) : P s' (log ++ out) := by
  induction is generalizing s log out with
  | nil =>
    cases hrun
    rwa [List.append_nil]
  | cons i is ih =>
    obtain ⟨s₁, o, rest, hs, hr, rfl⟩ := run_cons_some hrun
    rw [← List.append_assoc]
    exact ih (hstep s log i s₁ o hP hG.1 hs) (hG.2 (s₁, o) hs) hr

theorem run_state_invariant {Q : σ → Prop} (hstep : ∀ s i s' out, Q s → G s i → step s i = some (s', out) → Q s')
    (hQ : Q s) (hG : Meets step G s is) (hrun : run step s is = some (s', out)) : Q s' :=
  @run_invariant σ ι ο step G s s' is out [] (fun s _ => Q s) (fun s _ i s' out => hstep s i s' out) hQ hG hrun

end

/-! ### Folds -/

section
variable {σ ι : Type*} (f : σ → ι → σ)

/-- `Meets` for a component that cannot abort and logs nothing: every step of the fold satisfies `G`. -/
def Along (G : σ → ι → Prop) : σ → List ι → Prop
  | _, [] => True
  | s, i :: is => G s i ∧ Along G (f s i) is

instance Along.instDecidable {G : σ → ι → Prop} [∀ s i, Decidable (G s i)] :
    ∀ s is, Decidable (Along f G s is)
  | _, [] => isTrue trivial
  | s, i :: is =>
    have : Decidable (Along f G (f s i) is) := Along.instDecidable (f s i) is
    inferInstanceAs (Decidable (G s i ∧ Along f G (f s i) is))

variable {f} {G : σ → ι → Prop} {s : σ} {i : ι} {is : List ι}

/-- Every input is taken at some point of the fold, in a state that satisfies `G` with it. -/
theorem Along.exists_split (h : Along f G s is)
    (hi : i ∈ is) : ∃ before after, is = before ++ i :: after ∧ G (before.foldl f s) i := by
  induction is generalizing s with
  | nil => cases hi
  | cons j is ih =>
    rcases List.mem_cons.mp hi with rfl | hi
    · exact ⟨[], is, rfl, h.1⟩
    · obtain ⟨before, after, rfl, hG⟩ := ih h.2 hi
      exact ⟨j :: before, after, rfl, hG⟩

/-- Two components that take the same inputs stay in a relation that every step keeps. -/
theorem Along.foldl_rel {τ : Type*} {g : τ → ι → τ} {P : σ → τ → Prop}
    (hstep : ∀ s t i, P s t → G s i → P (f s i) (g t i)) {t : τ} (h : Along f G s is)
    (hP : P s t) : P (is.foldl f s) (is.foldl g t) := by
  induction is generalizing s t with
  | nil => exact hP
  | cons i is ih => exact ih h.2 (hstep s t i hP h.1)

end

end Sovereign.Lib

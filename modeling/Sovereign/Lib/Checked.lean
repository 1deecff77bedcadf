import Sovereign.Lib.Bytes

/-!
# Runs that may fail, panic or allocate

A decoder of untrusted bytes is judged by more than the value it returns: it must not access its input out
of range, and it must not let the input make it allocate.  `Checked ε α` is the run of such a function: it
ends with a value, an error or a panic, and it has allocated a number of bytes.

* `slice`, `sliceFrom` and `index` are the accesses to a byte string; out of range they panic.
* `makeSlice` is the allocation of a slice whose capacity may come from the input.
* `slice_eq`, `sliceFrom_eq` and `index_eq` — within the range they are the field accesses of `Bytes`.
* `ofExcept` — a run that ends as an `Except` says.
-/

namespace Sovereign.Lib

/-- How a run ends. -/
inductive Ending (ε α : Type) where
  | value (a : α)
  | error (e : ε)
  | panic
deriving DecidableEq

/-- A run: how it ends, and the bytes it has allocated by then. -/
@[ext] structure Checked (ε α : Type) where
  ending : Ending ε α
  allocated : ℕ
deriving DecidableEq

namespace Checked

variable {ε ε' α β : Type} {γ : Type} {c : Prop} {bs : Bytes}

/-- The rest of a run, unless it has ended. -/
def andThen (x : Checked ε α) (f : α → Checked ε β) : Checked ε β :=
  match x.ending with
  | .value a => ⟨(f a).ending, x.allocated + (f a).allocated⟩
  | .error e => ⟨.error e, x.allocated⟩
  | .panic => ⟨.panic, x.allocated⟩

instance : Monad (Checked ε) where
  pure a := ⟨.value a, 0⟩
  bind := andThen

def fail (e : ε) : Checked ε α := ⟨.error e, 0⟩

def failIf (c : Prop) [Decidable c] (e : ε) : Checked ε Unit := if c then fail e else pure ()

def crash : Checked ε α := ⟨.panic, 0⟩

def alloc (n : ℕ) : Checked ε Unit := ⟨.value (), n⟩

/-- The largest allocation of the runtime, on 64-bit platforms. -/
def maxAlloc : ℕ := 2 ^ 48

/-- The backing array of `make([]T, 0, cap)` for a `T` of `size` bytes: a capacity out of range panics.
That the memory of the machine runs out below `maxAlloc` is outside the model. -/
def makeSlice (size cap : ℕ) : Checked ε Unit := if size * cap ≤ maxAlloc then alloc (size * cap) else crash

def orPanic : Option α → Checked ε α
  | some a => pure a
  | none => crash

def slice (bs : Bytes) (lo hi : ℕ) : Checked ε Bytes :=
  if lo ≤ hi ∧ hi ≤ bs.length then pure (Lib.slice bs lo (hi - lo)) else crash

def sliceFrom (bs : Bytes) (lo : ℕ) : Checked ε Bytes := if lo ≤ bs.length then pure (bs.drop lo) else crash

def index (bs : Bytes) (i : ℕ) : Checked ε UInt8 := orPanic bs[i]?

def mapError (f : ε → ε') (x : Checked ε α) : Checked ε' α :=
  match x.ending with
  | .value a => ⟨.value a, x.allocated⟩
  | .error e => ⟨.error (f e), x.allocated⟩
  | .panic => ⟨.panic, x.allocated⟩

/-- A run that ends as `x` says and allocates `cost` if it succeeds. -/
def ofExcept (cost : α → ℕ) : Except ε α → Checked ε α
  | .ok a => ⟨.value a, cost a⟩
  | .error e => fail e

theorem andThen_assoc (x : Checked ε α) (f : α → Checked ε β) (g : β → Checked ε γ) :
    (x.andThen f).andThen g = x.andThen fun a => (f a).andThen g := by
  obtain ⟨ending, n⟩ := x
  cases ending with
  | value a =>
    simp only [andThen]
    cases (f a).ending with
    | value b => exact Checked.ext rfl (Nat.add_assoc _ _ _)
    | error e => rfl
    | panic => rfl
  | error e => rfl
  | panic => rfl

instance : LawfulMonad (Checked ε) := LawfulMonad.mk' (Checked ε)
  (fun x => by
    obtain ⟨ending, n⟩ := x
    cases ending with
    | value a => rfl
    | error e => rfl
    | panic => rfl)
  (fun _ _ => Checked.ext rfl (Nat.zero_add _))
  andThen_assoc

theorem failIf_bind_of_pos [Decidable c] (h : c) (e : ε) (f : Unit → Checked ε β) :
    failIf c e >>= f = fail e := by
  rw [failIf, if_pos h]
  rfl

theorem failIf_bind_of_neg [Decidable c] (h : ¬ c) (e : ε) (f : Unit → Checked ε β) :
    failIf c e >>= f = f () := by
  rw [failIf, if_neg h, pure_bind]

/-- A check against the branch of a model without panics. -/
theorem failIf_bind_eq {d : Prop} [Decidable c] [Decidable d] {e : ε} {f : Unit → Checked ε β} {x y : γ}
    (g : γ → Checked ε β) (hcd : c ↔ d) (hx : g x = fail e) (hy : ¬ c → f () = g y) :
    failIf c e >>= f = g (if d then x else y) := by
  by_cases h : c
  · rw [failIf_bind_of_pos h, if_pos (hcd.mp h), hx]
  · rw [failIf_bind_of_neg h, if_neg (mt hcd.mpr h), hy h]

theorem slice_eq {lo hi : ℕ} (hle : lo ≤ hi) (hhi : hi ≤ bs.length) :
    (slice bs lo hi : Checked ε Bytes) = pure (Lib.slice bs lo (hi - lo)) := if_pos ⟨hle, hhi⟩

theorem sliceFrom_eq {lo : ℕ} (hle : lo ≤ bs.length) :
    (sliceFrom bs lo : Checked ε Bytes) = pure (bs.drop lo) := if_pos hle

theorem index_eq {i : ℕ} (hi : i < bs.length) : (index bs i : Checked ε UInt8) = pure bs[i] := by
  rw [index, List.getElem?_eq_getElem hi]
  rfl

theorem value_bind (a : α) (n : ℕ) (f : α → Checked ε β) :
    (⟨.value a, n⟩ : Checked ε α) >>= f = ⟨(f a).ending, n + (f a).allocated⟩ := rfl

/-- A loop whose turns all return: the costs add up. -/
theorem mapM_eq {f : γ → Checked ε α} {g : γ → α} {cost : ℕ} {l : List γ}
    (h : ∀ c ∈ l, f c = ⟨.value (g c), cost⟩) :
    l.mapM f = (⟨.value (l.map g), l.length * cost⟩ : Checked ε (List α)) := by
  induction l with
  | nil => exact Checked.ext rfl (Nat.zero_mul _).symm
  | cons c l ih =>
    rw [List.mapM_cons, h c List.mem_cons_self, value_bind, ih fun c' hc' => h c' (List.mem_cons_of_mem _ hc'),
      value_bind, List.length_cons, Nat.succ_mul]
    exact Checked.ext rfl (Nat.add_comm cost (l.length * cost))

end Checked

end Sovereign.Lib

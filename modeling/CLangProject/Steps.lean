import Mathlib

/-!
# Deterministic transition systems

A machine is a partial function `f : α → Option α`: `f a = some b` is one
step, `f a = none` means that `a` has stopped. `RunN` counts the steps of a
run, `Run` forgets the count.

Determinism enters once, in `RunN.rest`: a run that has stopped passes
through every state the machine reaches on the way, so a known first part
can be cut off.
-/

namespace CLangProject

variable {α : Type*} {f : α → Option α}

inductive RunN (f : α → Option α) : Nat → α → α → Prop where
  | refl (a) : RunN f 0 a a
  | step {n a b c} : f a = some b → RunN f n b c → RunN f (n + 1) a c

/-- `b` is reached from `a` in some number of steps. -/
def Run (f : α → Option α) (a b : α) : Prop := ∃ n, RunN f n a b

variable {n : Nat} {a b c : α}

theorem RunN.trans {m : Nat} (h1 : RunN f m a b) (h2 : RunN f n b c) : RunN f (m + n) a c := by
  induction h1 with
  | refl => simpa using h2
  | step hs _ ih => rw [Nat.add_right_comm]; exact .step hs (ih h2)

/-- A run that ends in a stopped state goes through the end of any run from
the same start. -/
theorem RunN.rest {k : Nat} (hk : RunN f k a b) (hn : RunN f n a c) (hstop : f c = none) :
    ∃ m, n = k + m ∧ RunN f m b c := by
  induction hk generalizing n with
  | refl => exact ⟨n, by omega, hn⟩
  | step hs _ ih =>
    cases hn with
    | refl => rw [hstop] at hs; cases hs
    | step hs' hn' =>
      obtain rfl := Option.some.inj (hs.symm.trans hs')
      obtain ⟨m, rfl, hm⟩ := ih hn'
      exact ⟨m, by omega, hm⟩

theorem Run.refl (a : α) : Run f a a := ⟨0, .refl a⟩

theorem Run.single (h : f a = some b) : Run f a b := ⟨1, .step h (.refl b)⟩

theorem Run.trans (h1 : Run f a b) (h2 : Run f b c) : Run f a c := by
  obtain ⟨m, h1⟩ := h1
  obtain ⟨n, h2⟩ := h2
  exact ⟨m + n, h1.trans h2⟩

theorem Run.head (h : f a = some b) (h2 : Run f b c) : Run f a c := (Run.single h).trans h2

/-- What one step preserves holds along the whole run. -/
theorem Run.invariant {P : α → Prop} (h : Run f a b) (ha : P a)
    (hstep : ∀ x y, P x → f x = some y → P y) : P b := by
  obtain ⟨n, h⟩ := h
  induction h with
  | refl => exact ha
  | step hs _ ih => exact ih (hstep _ _ ha hs)

end CLangProject

import Mathlib

/-!
# Loops over arrays

Code that runs over arrays with `for` and `while`. An access outside of an
array, a division by zero or an overflow is `Fault.undefined`; a `while` loop
that has used up its fuel is `Fault.unfinished`.

`Safe x Q` says that the computation `x` runs into nothing undefined and that
its result, if it returns, satisfies `Q`. There is one rule for each way to
build a computation; the rules for the loops ask for an invariant.
-/

namespace CLangProject

open Function

inductive Fault where
  | undefined
  | unfinished
deriving DecidableEq, Repr

variable {α β σ : Type}

/-! ## Partial correctness -/

def Safe (x : Except Fault α) (Q : α → Prop) : Prop := x = .error .unfinished ∨ ∃ a, x = .ok a ∧ Q a

namespace Safe

variable {x : Except Fault α} {f : α → Except Fault β} {Q Q' : α → Prop} {R : β → Prop}

variable {a : α}

theorem ok (h : Q a) : Safe (.ok a) Q := .inr ⟨a, rfl, h⟩

theorem ok_inv (h : Safe (.ok a) Q) : Q a := by
  rcases h with h | ⟨b, hb, hq⟩
  · cases h
  · cases hb
    exact hq

theorem ne_undefined (h : Safe x Q) : x ≠ .error .undefined := by
  rintro rfl
  rcases h with h | ⟨a, h, -⟩ <;> cases h

theorem mono (h : Safe x Q) (hq : ∀ a, Q a → Q' a) : Safe x Q' :=
  h.imp_right fun ⟨a, ha, hqa⟩ => ⟨a, ha, hq a hqa⟩

theorem bind (h : Safe x Q) (hf : ∀ a, Q a → Safe (f a) R) : Safe (x >>= f) R := by
  rcases h with rfl | ⟨a, rfl, hq⟩
  · exact .inl rfl
  · exact hf a hq

end Safe

/-! ## Arrays -/

/-- An array; what stands behind its end is never read. -/
structure Arr (α : Type) where
  length : Nat
  val : Nat → α

namespace Arr

variable {a : Arr α} {i j : Nat} {v : α}

def read (a : Arr α) (i : Nat) : Except Fault α :=
  if i < a.length then .ok (a.val i) else .error .undefined

def set (a : Arr α) (i : Nat) (v : α) : Arr α := { a with val := update a.val i v }

def write (a : Arr α) (i : Nat) (v : α) : Except Fault (Arr α) :=
  if i < a.length then .ok (a.set i v) else .error .undefined

@[simp] theorem length_set : (a.set i v).length = a.length := rfl

@[simp] theorem val_set_self : (a.set i v).val i = v := update_self ..

theorem val_set_ne (h : j ≠ i) : (a.set i v).val j = a.val j := update_of_ne h ..

theorem read_eq (h : i < a.length) : a.read i = .ok (a.val i) := if_pos h

theorem write_eq (h : i < a.length) : a.write i v = .ok (a.set i v) := if_pos h

end Arr

namespace Safe

variable {a : Arr α} {i : Nat} {v : α} {f : α → Except Fault β} {R : β → Prop}

theorem read_bind (h : i < a.length) (hf : Safe (f (a.val i)) R) : Safe (a.read i >>= f) R := by
  rw [Arr.read_eq h]
  exact hf

theorem write_bind {g : Arr α → Except Fault β} (h : i < a.length) (hg : Safe (g (a.set i v)) R) :
    Safe (a.write i v >>= g) R := by
  rw [Arr.write_eq h]
  exact hg

theorem write {Q : Arr α → Prop} (h : i < a.length) (hq : Q (a.set i v)) :
    Safe (a.write i v) Q := by
  rw [Arr.write_eq h]
  exact ok hq

end Safe

/-! ## Loops -/

/-- `for ( i = lo; i < lo + n; i++ )` -/
def forLoop (body : Nat → σ → Except Fault σ) : (n lo : Nat) → σ → Except Fault σ
  | 0, _, s => .ok s
  | n + 1, lo, s => body lo s >>= forLoop body n (lo + 1)

/-- `while ( test )` -/
def whileLoop (test : σ → Bool) (body : σ → Except Fault σ) : (fuel : Nat) → σ → Except Fault σ
  | 0, s => if test s then .error .unfinished else .ok s
  | fuel + 1, s => if test s then body s >>= whileLoop test body fuel else .ok s

variable {n : Nat} {s : σ} {body : Nat → σ → Except Fault σ}

theorem Safe.forLoop {lo : Nat} (Inv : Nat → σ → Prop)
    (hbody : ∀ i s, lo ≤ i → i < lo + n → Inv i s → Safe (body i s) (Inv (i + 1))) (h : Inv lo s) :
    Safe (forLoop body n lo s) (Inv (lo + n)) := by
  induction n generalizing lo s with
  | zero => exact .ok h
  | succ n ih =>
    refine (hbody lo s (Nat.le_refl lo) (by omega) h).bind fun s' hs' => ?_
    rw [show lo + (n + 1) = lo + 1 + n by omega]
    exact ih (fun i s h1 h2 => hbody i s (by omega) (by omega)) hs'

theorem Safe.forRange (Inv : Nat → σ → Prop)
    (hbody : ∀ i s, i < n → Inv i s → Safe (body i s) (Inv (i + 1))) (h : Inv 0 s) :
    Safe (CLangProject.forLoop body n 0 s) (Inv n) := by
  have hloop : Safe (CLangProject.forLoop body n 0 s) (Inv (0 + n)) :=
    Safe.forLoop Inv (fun i s _ hi => hbody i s (by omega)) h
  rwa [Nat.zero_add] at hloop

theorem forLoop_succ (body : Nat → σ → Except Fault σ) (n lo : Nat) (s : σ) :
    forLoop body (n + 1) lo s = forLoop body n lo s >>= body (lo + n) := by
  induction n generalizing lo s with
  | zero =>
    change (body lo s >>= fun s => .ok s) = body lo s
    cases body lo s <;> rfl
  | succ n ih =>
    change (body lo s >>= forLoop body (n + 1) (lo + 1)) = (body lo s >>= forLoop body n (lo + 1))
      >>= _
    rw [show lo + (n + 1) = lo + 1 + n by omega, bind_assoc]
    exact congrArg _ (funext fun s' => ih (lo + 1) s')

/-- A loop whose rounds all have a result has one, too. -/
theorem forLoop_ok {body : Nat → σ → Except Fault σ} {n : Nat} (lo : Nat) (s : σ)
    (Inv : Nat → σ → Prop) (hbody : ∀ i s, lo ≤ i → i < lo + n → Inv i s → ∃ s', body i s = .ok s' ∧
      Inv (i + 1) s')
    (h : Inv lo s) : ∃ s', forLoop body n lo s = .ok s' ∧ Inv (lo + n) s' := by
  induction n with
  | zero => exact ⟨s, rfl, h⟩
  | succ n ih =>
    obtain ⟨t, ht, hinv⟩ := ih fun i s h1 h2 => hbody i s h1 (by omega)
    obtain ⟨t', ht', hinv'⟩ := hbody (lo + n) t (by omega) (by omega) hinv
    exact ⟨t', by rw [forLoop_succ, ht]; exact ht', hinv'⟩

/-- All entries of an array are set to `v`. -/
theorem Safe.fill {a : Arr α} (v : α) (h : a.length = n) :
    Safe (CLangProject.forLoop (fun i (a : Arr α) => a.write i v) n 0 a) fun a =>
      a.length = n ∧ ∀ i, i < n → a.val i = v := by
  refine Safe.forRange (fun m (a : Arr α) => a.length = n ∧ ∀ i, i < m → a.val i = v)
    (fun m a hm ha => .write (by omega) ⟨ha.1, fun i hi => ?_⟩) ⟨h, fun i hi => by omega⟩
  by_cases him : i = m
  · subst him
    exact Arr.val_set_self
  · rw [Arr.val_set_ne him]
    exact ha.2 i (by omega)

theorem Safe.whileLoop {test : σ → Bool} {body : σ → Except Fault σ} (Inv : σ → Prop) (fuel : Nat)
    (hbody : ∀ s, test s = true → Inv s → Safe (body s) Inv) (h : Inv s) :
    Safe (whileLoop test body fuel s) fun s => Inv s ∧ test s = false := by
  induction fuel generalizing s with
  | zero =>
    rw [CLangProject.whileLoop]
    cases ht : test s with
    | true => exact .inl rfl
    | false => exact .ok ⟨h, ht⟩
  | succ fuel ih =>
    rw [CLangProject.whileLoop]
    cases ht : test s with
    | true => exact (hbody s ht h).bind fun s' hs' => ih hs'
    | false => exact .ok ⟨h, ht⟩

end CLangProject

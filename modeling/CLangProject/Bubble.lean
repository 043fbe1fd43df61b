import Mathlib

/-!
# Bubble sort

Bubble sort with a flag: a pass goes through the list once, exchanging
neighbours that are out of order, and the sort ends with the first pass that
exchanges nothing. Such a pass has found the list in order. Every other pass
reduces the number of inversions, so that there are no more passes than
inversions, and one.
-/

namespace CLangProject.Bubble

open List

variable {α κ : Type*} [LinearOrder κ] (key : α → κ)

/-- Carry `x` through the list: it is left in front of the first element that
is not smaller, which is then carried on. The flag says whether anything has
been exchanged. -/
def carry (x : α) : List α → List α × Bool
  | [] => ([x], false)
  | y :: l =>
    if key y < key x then (y :: (carry x l).1, true)
    else (x :: (carry y l).1, (carry y l).2)

def pass : List α → List α × Bool
  | [] => ([], false)
  | x :: l => carry key x l

/-- Passes until one exchanges nothing, at most `n` of them. -/
def sort : Nat → List α → Option (List α)
  | 0, _ => none
  | n + 1, l => if (pass key l).2 then sort n (pass key l).1 else some (pass key l).1

/-- The number of pairs that are out of order. -/
def inversions : List α → Nat
  | [] => 0
  | x :: l => l.countP (key · < key x) + inversions l

variable {key}

theorem carry_perm (x : α) (l : List α) : (carry key x l).1.Perm (x :: l) := by
  induction l generalizing x with
  | nil => exact .rfl
  | cons y l ih =>
    unfold carry
    split
    · exact ((ih x).cons y).trans (Perm.swap x y l)
    · exact (ih y).cons x

theorem pass_perm (l : List α) : (pass key l).1.Perm l := by
  cases l with
  | nil => exact .rfl
  | cons x l => exact carry_perm x l

section

variable (x : α) (l : List α) (h : (carry key x l).2 = false)
include x l h

/-- A pass that exchanges nothing has met a list in order. -/
theorem sorted_of_carry : (x :: l).Pairwise fun y z => key y ≤ key z := by
  induction l generalizing x with
  | nil => exact pairwise_singleton _ x
  | cons y l ih =>
    unfold carry at h
    split at h
    case isTrue => simp at h
    case isFalse hxy =>
      have hy := ih y h
      refine pairwise_cons.2 ⟨fun z hz => ?_, hy⟩
      have hxy : key x ≤ key y := not_lt.1 hxy
      rcases mem_cons.1 hz with rfl | hz
      · exact hxy
      · exact hxy.trans ((pairwise_cons.1 hy).1 z hz)

theorem carry_eq_self : (carry key x l).1 = x :: l := by
  induction l generalizing x with
  | nil => rfl
  | cons y l ih =>
    by_cases hxy : key y < key x
    · simp [carry, hxy] at h
    · rw [carry, if_neg hxy] at h ⊢
      exact congrArg (x :: ·) (ih y h)

end

theorem sorted_of_pass (l : List α) (h : (pass key l).2 = false) :
    (pass key l).1.Pairwise fun y z => key y ≤ key z := by
  cases l with
  | nil => exact Pairwise.nil
  | cons x l =>
    rw [show (pass key (x :: l)).1 = x :: l from carry_eq_self x l h]
    exact sorted_of_carry x l h

/-- A pass does not add inversions, and removes one if it exchanges anything. -/
theorem inversions_carry (x : α) (l : List α) :
    inversions key (carry key x l).1 + (if (carry key x l).2 then 1 else 0) ≤
      inversions key (x :: l) := by
  induction l generalizing x with
  | nil => simp [carry]
  | cons y l ih =>
    unfold carry
    split
    case isTrue hyx =>
      have hcount := (show (carry key x l).1.Perm (x :: l) from carry_perm x l).countP_eq
        (key · < key y)
      have hx := ih x
      simp only [inversions, countP_cons, hcount, hyx, hyx.not_gt, decide_true,
        decide_false, if_true, Bool.false_eq_true, if_false] at hx ⊢
      omega
    case isFalse hyx =>
      have hcount := (show (carry key y l).1.Perm (y :: l) from carry_perm y l).countP_eq
        (key · < key x)
      have hy := ih y
      rw [inversions, inversions, hcount, Nat.add_assoc]
      exact Nat.add_le_add_left hy _

theorem inversions_pass (l : List α) (h : (pass key l).2 = true) :
    inversions key (pass key l).1 < inversions key l := by
  cases l with
  | nil => simp [pass] at h
  | cons x l =>
    have hle : inversions key (carry key x l).1 + _ ≤ inversions key (x :: l) :=
      inversions_carry x l
    rwa [show (carry key x l).2 = true from h, if_pos rfl] at hle

theorem inversions_le (l : List α) : inversions key l ≤ l.length * l.length := by
  induction l with
  | nil => exact Nat.le_refl 0
  | cons x l ih =>
    have hcount := countP_le_length (p := fun y => decide (key y < key x)) (l := l)
    rw [inversions, length_cons, Nat.mul_succ, Nat.succ_mul]
    omega

/-- Enough passes sort the list. -/
theorem sort_ok {n : Nat} {l : List α} (h : inversions key l < n) :
    ∃ l', sort key n l = some l' ∧ l'.Perm l ∧ l'.Pairwise fun y z => key y ≤ key z := by
  induction n generalizing l with
  | zero => omega
  | succ n ih =>
    rw [sort]
    split
    case isTrue hswap =>
      have hlt := inversions_pass l hswap
      obtain ⟨l', hl', hperm, hsorted⟩ := ih (l := (pass key l).1) (by omega)
      exact ⟨l', hl', hperm.trans (pass_perm l), hsorted⟩
    case isFalse hswap =>
      exact ⟨_, rfl, pass_perm l, sorted_of_pass l (Bool.eq_false_iff.2 hswap)⟩

end CLangProject.Bubble

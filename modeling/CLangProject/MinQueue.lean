import Mathlib.Data.Int.Order.Basic
import Mathlib.Data.List.Basic

/-!
# The queue with minimum of `ch5/min_queue.c`

Two rings: the queue itself, and beside it the elements whose key is not larger than any behind
them. A ring is the list of its nodes in the order of `next`, from the rear to the front, without
the placeholder. Nodes are values: which of them `enqueue` uses again makes no difference.

The second ring is always the list of these elements (`minima`), so that its front is the oldest one
with the least key (`serves_minqueue`).
-/

namespace CLangProject.MinQueue

open List

variable {ο : Type}

structure Queue (ο : Type) where
  /-- The ring at `qu->next`. -/
  objects : List (Int × ο)
  /-- The ring at `qu->prev`. -/
  minkeys : List (Int × ο)

/-! ## The code -/

def POSINFTY : Int := 10000

def createMinqueue : Queue ο := ⟨[], []⟩

/-- The key of the placeholder is `POSINFTY`. -/
def findMinKey (qu : Queue ο) : Int := (qu.minkeys.getLast?.map Prod.fst).getD POSINFTY

/-- The object of the placeholder is not set. -/
def findMinObj (qu : Queue ο) : Option ο := qu.minkeys.getLast?.map Prod.snd

/-- Remove all larger keys from the rear. -/
def removeLarger (newKey : Int) : List (Int × ο) → List (Int × ο)
  | [] => []
  | x :: l => if x.1 > newKey then removeLarger newKey l else x :: l

def enqueue (newObj : ο) (newKey : Int) (qu : Queue ο) : Queue ο :=
  ⟨(newKey, newObj) :: qu.objects, (newKey, newObj) :: removeLarger newKey qu.minkeys⟩

/-- There is no result if the placeholder of the second ring would be unlinked. -/
def dequeue (qu : Queue ο) : Option (Option ο × Queue ο) :=
  match qu.objects.getLast? with
  | none => some (none, qu)
  | some tmp =>
    if tmp.1 = findMinKey qu then
      if qu.minkeys = [] then none
      else some (some tmp.2, ⟨qu.objects.dropLast, qu.minkeys.dropLast⟩)
    else some (some tmp.2, ⟨qu.objects.dropLast, qu.minkeys⟩)

/-! ## Runs -/

inductive Call (ο : Type) where
  | enqueue (newObj : ο) (newKey : Int)
  | dequeue

/-- The oldest element with the least key. -/
def Oldest (l : List (Int × ο)) (x : Int × ο) : Prop :=
  ∃ before behind, l = before ++ x :: behind ∧ (∀ y ∈ before, x.1 < y.1) ∧ ∀ y ∈ behind, x.1 ≤ y.1

/-- What can be seen of a queue with the elements `l`, the oldest one in front. -/
def Shows (qu : Queue ο) (l : List (Int × ο)) : Prop :=
  l = [] ∧ findMinKey qu = POSINFTY ∨
    ∃ x, Oldest l x ∧ findMinKey qu = x.1 ∧ findMinObj qu = some x.2

def Serves : Queue ο → List (Int × ο) → List (Call ο) → Prop
  | qu, l, [] => Shows qu l
  | qu, l, .enqueue newObj newKey :: cs =>
    Shows qu l ∧ Serves (enqueue newObj newKey qu) (l ++ [(newKey, newObj)]) cs
  | qu, l, .dequeue :: cs =>
    Shows qu l ∧ ∃ qu', dequeue qu = some (l.head?.map Prod.snd, qu') ∧ Serves qu' l.tail cs

/-! ## The second ring -/

/-- The elements whose key is not larger than any behind them. -/
def minima : List (Int × ο) → List (Int × ο)
  | [] => []
  | x :: l => if ∀ y ∈ l, x.1 ≤ y.1 then x :: minima l else minima l

variable {l : List (Int × ο)} {x : Int × ο}

theorem minima_subset : minima l ⊆ l := by
  induction l with
  | nil => exact fun _ => id
  | cons x l ih =>
    rw [minima]
    split
    · exact cons_subset_cons x ih
    · exact fun y hy => mem_cons_of_mem x (ih hy)

theorem minima_sorted : (minima l).Pairwise (·.1 ≤ ·.1) := by
  induction l with
  | nil => exact .nil
  | cons x l ih =>
    rw [minima]
    split
    next hx => exact .cons (fun y hy => hx y (minima_subset hy)) ih
    next => exact ih

theorem minima_concat : minima (l ++ [x]) = (minima l).filter (·.1 ≤ x.1) ++ [x] := by
  induction l with
  | nil => simp [minima]
  | cons y l ih =>
    rw [cons_append, minima, minima, ih]
    by_cases hy : ∀ z ∈ l, y.1 ≤ z.1
    · by_cases hx : y.1 ≤ x.1
      · rw [if_pos (forall_mem_append.2 ⟨hy, forall_mem_singleton.2 hx⟩), if_pos hy,
          filter_cons_of_pos (by simpa using hx), cons_append]
      · rw [if_neg fun h => hx (h x (by simp)), if_pos hy, filter_cons_of_neg (by simpa using hx)]
    · rw [if_neg fun h => hy fun z hz => h z (mem_append_left _ hz), if_neg hy]

/-- The keys fall from the rear to the front, so that no larger one is left. -/
theorem removeLarger_eq {k : Int} (h : l.Pairwise (·.1 ≥ ·.1)) :
    removeLarger k l = l.filter (·.1 ≤ k) := by
  induction l with
  | nil => rfl
  | cons x l ih =>
    obtain ⟨hx, h⟩ := pairwise_cons.1 h
    rw [removeLarger]
    split
    next hk => rw [ih h, filter_cons_of_neg (by simpa using hk)]
    next hk =>
      refine (filter_eq_self.2 fun y hy => ?_).symm
      rcases mem_cons.1 hy with rfl | hy
      · simpa using hk
      · simpa using le_trans (hx y hy) (not_lt.1 hk)

theorem head_minima (hl : l ≠ []) : ∃ x, (minima l).head? = some x ∧ Oldest l x := by
  induction l with
  | nil => exact absurd rfl hl
  | cons y l ih =>
    rw [minima]
    split
    next hy => exact ⟨y, rfl, [], l, rfl, by simp, hy⟩
    next hy =>
      have hne : l ≠ [] := by
        rintro rfl
        exact hy (by simp)
      obtain ⟨x, hx, before, behind, rfl, hbefore, hbehind⟩ := ih hne
      refine ⟨x, hx, y :: before, behind, rfl, forall_mem_cons.2 ⟨not_le.1 fun hle => ?_, hbefore⟩,
        hbehind⟩
      refine hy (forall_mem_append.2 ⟨fun z hz => ?_, forall_mem_cons.2 ⟨hle, fun z hz => ?_⟩⟩)
      · exact le_trans hle (le_of_lt (hbefore z hz))
      · exact le_trans hle (hbehind z hz)

/-! ## The calls -/

/-- The queue with the elements `l`. -/
def holding (l : List (Int × ο)) : Queue ο := ⟨l.reverse, (minima l).reverse⟩

theorem findMinKey_holding (h : (minima l).head? = some x) : findMinKey (holding l) = x.1 := by
  simp [findMinKey, holding, h]

theorem shows_holding (l : List (Int × ο)) : Shows (holding l) l := by
  cases l with
  | nil => exact .inl ⟨rfl, rfl⟩
  | cons y l =>
    obtain ⟨x, hx, hold⟩ := head_minima (cons_ne_nil y l)
    refine .inr ⟨x, hold, findMinKey_holding hx, ?_⟩
    rw [findMinObj, holding, getLast?_reverse, hx, Option.map_some]

theorem enqueue_holding (o : ο) (k : Int) :
    enqueue o k (holding l) = holding (l ++ [(k, o)]) := by
  rw [enqueue, holding, holding, removeLarger_eq (pairwise_reverse.2 minima_sorted), minima_concat,
    reverse_concat, reverse_concat, filter_reverse]

/-- The front of the second ring has the key of the first element only if it is that element. -/
theorem dequeue_holding : dequeue (holding (x :: l)) = some (some x.2, holding l) := by
  have hlast : (holding (x :: l)).objects.getLast? = some x := by
    rw [holding, getLast?_reverse, head?_cons]
  rw [dequeue, hlast]
  by_cases hx : ∀ y ∈ l, x.1 ≤ y.1
  · have hmin : minima (x :: l) = x :: minima l := if_pos hx
    rw [findMinKey_holding (by rw [hmin, head?_cons])]
    simp [holding, hmin]
  · have hmin : minima (x :: l) = minima l := if_neg hx
    obtain ⟨y, hy, before, behind, hl, hbefore, hbehind⟩ := head_minima (cons_ne_nil x l)
    have hne : x.1 ≠ y.1 := by
      cases before with
      | nil =>
        cases hl
        exact absurd hbehind hx
      | cons z before =>
        cases hl
        exact ne_of_gt (hbefore x mem_cons_self)
    simp only [findMinKey_holding hy, if_neg hne]
    rw [holding, holding, hmin, dropLast_reverse, tail_cons]

theorem serves_holding (cs : List (Call ο)) (l : List (Int × ο)) : Serves (holding l) l cs := by
  induction cs generalizing l with
  | nil => exact shows_holding l
  | cons c cs ih =>
    cases c with
    | enqueue o k =>
      rw [Serves, enqueue_holding]
      exact ⟨shows_holding l, ih _⟩
    | dequeue =>
      refine ⟨shows_holding l, holding l.tail, ?_, ih _⟩
      cases l with
      | nil => rfl
      | cons x l => exact dequeue_holding

end CLangProject.MinQueue

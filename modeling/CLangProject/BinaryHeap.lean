import Mathlib

/-!
# Binary heaps in an array

The elements of an array are numbered from 0, and the parent of the element `i` is
`(i - 1) / 2`. The array is `Ordered` by a preorder if no element comes before its parent.
Moving an element to its place exchanges it with its parent or with a child, and
meanwhile the order fails at one place at most: `UpTo` at the link from the element to its
parent, `DownTo` at the links to its children.
-/

namespace CLangProject.BinaryHeap

open Function

variable {α : Type*} {r : α → α → Prop} {a b : Nat → α} {n i j k : Nat}

def parent (i : Nat) : Nat := (i - 1) / 2

theorem parent_lt (h : 0 < i) : parent i < i := by
  unfold parent
  omega

theorem parent_eq_iff (h : 0 < i) : parent i = k ↔ i = 2 * k + 1 ∨ i = 2 * k + 1 + 1 := by
  unfold parent
  omega

/-- No element comes before its parent. -/
def Ordered (r : α → α → Prop) (a : Nat → α) (n : Nat) : Prop :=
  ∀ i, 0 < i → i < n → r (a (parent i)) (a i)

theorem Ordered.mono {n' : Nat} (h : Ordered r a n) (hn : n' ≤ n) : Ordered r a n' :=
  fun i hi hin => h i hi (Nat.lt_of_lt_of_le hin hn)

/-- The first element comes before all others. -/
theorem Ordered.root_le [IsPreorder α r] (h : Ordered r a n) (hi : i < n) : r (a 0) (a i) := by
  induction i using Nat.strongRecOn with
  | ind i ih =>
    rcases Nat.eq_zero_or_pos i with rfl | hpos
    · exact refl_of r _
    · exact trans_of r (ih (parent i) (parent_lt hpos) (Nat.lt_trans (parent_lt hpos) hi))
        (h i hpos hi)

/-! ## Contents -/

def contents (a : Nat → α) (n : Nat) : Multiset α := (Multiset.range n).map a

theorem contents_succ : contents a (n + 1) = a n ::ₘ contents a n := by
  rw [contents, Multiset.range_succ, Multiset.map_cons, contents]

theorem contents_congr (h : ∀ i < n, b i = a i) : contents b n = contents a n :=
  Multiset.map_congr rfl fun i hi => h i (Multiset.mem_range.1 hi)

theorem mem_contents {x : α} : x ∈ contents a n ↔ ∃ i < n, a i = x := by
  simp [contents]

theorem card_contents : (contents a n).card = n := by
  simp [contents]

/-- One element is replaced. -/
theorem contents_update (hk : k < n) (x : α) :
    a k ::ₘ contents (update a k x) n = x ::ₘ contents a n := by
  induction n with
  | zero => cases hk
  | succ n ih =>
    rw [contents_succ, contents_succ]
    rcases Nat.lt_succ_iff_lt_or_eq.1 hk with hkn | rfl
    · rw [update_of_ne (by omega), Multiset.cons_swap, ih hkn, Multiset.cons_swap]
    · have hsame : contents (update a k x) k = contents a k :=
        contents_congr fun i hi => update_of_ne (Nat.ne_of_lt hi) ..
      rw [update_self, hsame]
      exact Multiset.cons_swap ..

/-! ## Exchanges -/

/-- Two elements change places. -/
def exchange (a : Nat → α) (i j : Nat) : Nat → α := update (update a i (a j)) j (a i)

theorem exchange_right : exchange a i j j = a i := update_self ..

theorem exchange_left (h : i ≠ j) : exchange a i j i = a j := by
  rw [exchange, update_of_ne h, update_self]

theorem exchange_of_ne (hi : k ≠ i) (hj : k ≠ j) : exchange a i j k = a k := by
  rw [exchange, update_of_ne hj, update_of_ne hi]

theorem contents_exchange (hi : i < n) (hj : j < n) :
    contents (exchange a i j) n = contents a n := by
  by_cases hij : i = j
  · subst hij
    rw [exchange, update_idem, update_eq_self]
  · have hfirst := contents_update hi (a j) (a := a)
    have hsecond := contents_update hj (a i) (a := update a i (a j))
    rw [update_of_ne (Ne.symm hij)] at hsecond
    exact (Multiset.cons_inj_right (a j)).1 (hsecond.trans hfirst)

/-! ## Upwards -/

/-- The order may fail at the link from `k` to its parent. -/
structure UpTo (r : α → α → Prop) (a : Nat → α) (n k : Nat) : Prop where
  others : ∀ i, 0 < i → i < n → i ≠ k → r (a (parent i)) (a i)
  below : ∀ i, 0 < i → i < n → parent i = k → 0 < k → r (a (parent k)) (a i)

theorem UpTo.ordered (h : UpTo r a n k) (hk : 0 < k → r (a (parent k)) (a k)) : Ordered r a n :=
  fun i hi hin => by
    by_cases hik : i = k
    · subst hik
      exact hk hi
    · exact h.others i hi hin hik

theorem UpTo.exchange [IsPreorder α r] (h : UpTo r a n k) (hk : 0 < k) (hkn : k < n)
    (hle : r (a k) (a (parent k))) :
    UpTo r (exchange a k (parent k)) n (parent k) := by
  have hlt := parent_lt hk
  have hne : k ≠ parent k := by omega
  refine ⟨fun i hi hin hik => ?_, fun i hi hin hik hpos => ?_⟩
  · by_cases hi' : i = k
    · subst hi'
      rw [exchange_left hne, exchange_right]
      exact hle
    · rw [exchange_of_ne hi' hik]
      by_cases hpk : parent i = k
      · rw [hpk, exchange_left hne]
        exact h.below i hi hin hpk hk
      · by_cases hpp : parent i = parent k
        · rw [hpp, exchange_right]
          refine trans_of r hle ?_
          rw [← hpp]
          exact h.others i hi hin hi'
        · rw [exchange_of_ne hpk hpp]
          exact h.others i hi hin hi'
  · have hlt' := parent_lt hpos
    have hup := h.others (parent k) hpos (Nat.lt_trans hlt hkn) (Ne.symm hne)
    rw [exchange_of_ne (by omega) (by omega)]
    by_cases hi' : i = k
    · subst hi'
      rw [exchange_left hne]
      exact hup
    · have hlt'' := parent_lt hi
      rw [exchange_of_ne hi' (by omega)]
      refine trans_of r hup ?_
      rw [← hik]
      exact h.others i hi hin hi'

/-! ## Downwards -/

/-- The order may fail at the links from `k` to its children. -/
structure DownTo (r : α → α → Prop) (a : Nat → α) (n k : Nat) : Prop where
  others : ∀ i, 0 < i → i < n → parent i ≠ k → r (a (parent i)) (a i)
  below : ∀ i, 0 < i → i < n → parent i = k → 0 < k → r (a (parent k)) (a i)

theorem DownTo.ordered (h : DownTo r a n k)
    (hk : ∀ i, 0 < i → i < n → parent i = k → r (a k) (a i)) :
    Ordered r a n := fun i hi hin => by
  by_cases hik : parent i = k
  · rw [hik]
    exact hk i hi hin hik
  · exact h.others i hi hin hik

/-- The element `k` changes places with the smallest one of its children. -/
theorem DownTo.exchange (h : DownTo r a n k) (hi : 0 < i) (hik : parent i = k) (hin : i < n)
    (hle : r (a i) (a k)) (hmin : ∀ j, 0 < j → j < n → parent j = k → r (a i) (a j)) :
    DownTo r (exchange a k i) n i := by
  have hlt := parent_lt hi
  have hne : k ≠ i := by omega
  refine ⟨fun j hj hjn hji => ?_, fun j hj hjn hji _ => ?_⟩
  · have hlt' := parent_lt hj
    by_cases hjk : j = k
    · subst hjk
      rw [exchange_left hne, exchange_of_ne (by omega) hji]
      exact h.below i hi hin hik hj
    · by_cases hpk : parent j = k
      · rw [hpk, exchange_left hne]
        by_cases hj' : j = i
        · rw [hj', exchange_right]
          exact hle
        · rw [exchange_of_ne hjk hj']
          exact hmin j hj hjn hpk
      · rw [exchange_of_ne hpk hji, exchange_of_ne hjk fun heq => hpk (heq ▸ hik)]
        exact h.others j hj hjn hpk
  · have hlt' := parent_lt hj
    rw [hik, exchange_left hne, exchange_of_ne (by omega) (by omega), ← hji]
    exact h.others j hj hjn (by omega)

/-- The element `k` is replaced by one that does not come before its parent. -/
theorem Ordered.update [IsPreorder α r] {x : α} (h : Ordered r a n) (hk : k < n)
    (hx : 0 < k → r (a (parent k)) x) : DownTo r (update a k x) n k := by
  refine ⟨fun i hi hin hik => ?_, fun i hi hin hik hpos => ?_⟩
  · rw [update_of_ne hik]
    by_cases hik' : i = k
    · subst hik'
      rw [update_self]
      exact hx hi
    · rw [update_of_ne hik']
      exact h i hi hin
  · have hlt := parent_lt hpos
    have hlt' := parent_lt hi
    rw [update_of_ne (by omega), update_of_ne (by omega)]
    refine trans_of r (h k hpos hk) ?_
    rw [← hik]
    exact h i hi hin

end CLangProject.BinaryHeap

import CLangProject.Linked

/-!
# Binary numbers as lists of powers

A number is given by the exponents of the powers of two that it is the sum of. If they are strictly
decreasing, they are its binary digits (`digits_eq`).

Two numbers are added on one stack. The exponents of both are taken from the least one on, so that
each one occurs at most twice (`Twofold`). `Adds c R S`: `c` is the greatest exponent of the sum so
far, which may have come from a carry, `R` are the other ones and `S` is the rest of the stack. The
next exponent of the stack is greater than `c` (`Adds.front`), equal to it (`Adds.carry`), or, only
after a carry, smaller (`Adds.below`).
-/

namespace CLangProject

open List

variable {c n x : Nat} {R S hs hs' : List Nat}

/-- The sum of the powers of two. -/
def powSum (hs : List Nat) : Nat := (hs.map (2 ^ ·)).sum

@[simp] theorem powSum_cons : powSum (n :: hs) = 2 ^ n + powSum hs := by simp [powSum]

theorem powSum_reverse : powSum hs.reverse = powSum hs := (reverse_perm hs).map _ |>.sum_nat

theorem powSum_range_reverse (n : Nat) : powSum (List.range n).reverse + 1 = 2 ^ n := by
  induction n with
  | zero => rfl
  | succ n ih =>
    rw [range_succ, reverse_concat, powSum_cons, Nat.pow_succ]
    omega

/-! ## Digits -/

theorem digits_eq (h : hs.Pairwise (· > ·)) : hs.reverse = (powSum hs).bitIndices := by
  have hsorted : hs.reverse.SortedLT := (pairwise_reverse.2 h).sortedLT
  rw [← powSum_reverse]
  exact (Nat.bitIndices_sum_map_two_pow hsorted).symm

/-- A number with many digits is large. -/
theorem two_pow_length_le (h : hs.Pairwise (· > ·)) : 2 ^ hs.length ≤ powSum hs + 1 := by
  induction hs with
  | nil => exact Nat.le_refl 1
  | cons n hs ih =>
    obtain ⟨hn, h⟩ := pairwise_cons.1 h
    have hlen : hs.length ≤ n := length_le_of_nodup (h.imp Nat.ne_of_gt) hn
    have hpow : 2 ^ hs.length ≤ 2 ^ n := Nat.pow_le_pow_right (by decide) hlen
    rw [length_cons, powSum_cons, Nat.pow_succ]
    have := ih h
    omega

theorem lt_two_pow_add_two_pow {a b k : Nat} (hk : 2 ≤ k) (ha : k < a) (hab : 2 * k < a + b) :
    2 ^ (k + 1) + 2 < 2 ^ a + 2 ^ b := by
  have hfour : 2 ^ 2 ≤ 2 ^ k := Nat.pow_le_pow_right (by decide) hk
  have hsucc : 2 ^ (k + 1) = 2 ^ k * 2 := Nat.pow_succ ..
  have hb := Nat.two_pow_pos b
  rcases Nat.eq_or_lt_of_le ha with rfl | ha
  · have hb : 2 ^ k ≤ 2 ^ b := Nat.pow_le_pow_right (by decide) (by omega)
    omega
  · have ha : 2 ^ (k + 1 + 1) ≤ 2 ^ a := Nat.pow_le_pow_right (by decide) ha
    rw [Nat.pow_succ] at ha
    omega

/-- The digits of two numbers together. -/
theorem length_add_length_le {k : Nat} (hk : 2 ≤ k) (h : hs.Pairwise (· > ·))
    (h' : hs'.Pairwise (· > ·)) (hsum : powSum hs + powSum hs' ≤ 2 ^ (k + 1)) :
    hs.length + hs'.length ≤ 2 * k := by
  have hlen := two_pow_length_le h
  have hlen' := two_pow_length_le h'
  by_contra hlt
  rcases Nat.lt_or_ge k hs.length with ha | hb
  · have := lt_two_pow_add_two_pow hk ha (Nat.not_le.1 hlt)
    omega
  · have := lt_two_pow_add_two_pow hk (show k < hs'.length by omega) (show 2 * k < hs'.length +
      hs.length by omega)
    omega

/-! ## Addition -/

/-- Exponents from the least one on, each one at most twice. -/
structure Twofold (S : List Nat) : Prop where
  sorted : S.Pairwise (· ≤ ·)
  twice : ∀ x, S.count x ≤ 2

theorem Twofold.tail (h : Twofold (n :: S)) : Twofold S :=
  ⟨(pairwise_cons.1 h.sorted).2, fun x => Nat.le_trans count_le_count_cons (h.twice x)⟩

theorem Twofold.lt (h : Twofold (n :: c :: S)) (hx : x ∈ S) : n < x := by
  obtain ⟨hn, hS⟩ := pairwise_cons.1 h.sorted
  have hnc := hn c mem_cons_self
  have hcx := (pairwise_cons.1 hS).1 x hx
  refine Nat.lt_of_le_of_ne (Nat.le_trans hnc hcx) fun heq => ?_
  subst heq
  obtain rfl : c = n := Nat.le_antisymm hcx hnc
  have hpos : 0 < S.count c := count_pos_iff.2 hx
  have := h.twice c
  simp only [count_cons_self] at this
  omega

structure Adds (c : Nat) (R S : List Nat) : Prop where
  sum : (c :: R).Pairwise (· > ·)
  stack : Twofold S
  above : ∀ x ∈ R, ∀ y ∈ S, x < y
  next : (∀ y ∈ S, c ≤ y) ∨ ∃ n T, S = n :: T ∧ c = n + 1 ∧ ∀ y ∈ T, n < y

theorem adds_singleton (h : Twofold (c :: S)) : Adds c [] S :=
  ⟨pairwise_singleton .., h.tail, nofun, .inl (pairwise_cons.1 h.sorted).1⟩

namespace Adds

theorem front (h : Adds c R (n :: S)) (hn : c < n) : Adds n (c :: R) S := by
  have hnS := (pairwise_cons.1 h.stack.sorted).1
  refine ⟨pairwise_cons.2 ⟨fun x hx => ?_, h.sum⟩, h.stack.tail, fun x hx y hy => ?_, .inl hnS⟩
  · rcases mem_cons.1 hx with rfl | hx
    · exact hn
    · exact h.above x hx n mem_cons_self
  · rcases mem_cons.1 hx with rfl | hx
    · exact Nat.lt_of_lt_of_le hn (hnS y hy)
    · exact h.above x hx y (mem_cons_of_mem _ hy)

theorem carry (h : Adds c R (c :: S)) : Adds (c + 1) R S := by
  obtain ⟨hc, hR⟩ := pairwise_cons.1 h.sum
  refine ⟨pairwise_cons.2 ⟨fun x hx => Nat.lt_succ_of_lt (hc x hx), hR⟩, h.stack.tail,
    fun x hx y hy => h.above x hx y (mem_cons_of_mem _ hy), ?_⟩
  have hcS := (pairwise_cons.1 h.stack.sorted).1
  cases S with
  | nil => exact .inl nofun
  | cons n S =>
    have hlt : ∀ y ∈ S, c < y := fun y hy => h.stack.lt hy
    rcases Nat.eq_or_lt_of_le (hcS n mem_cons_self) with rfl | hn
    · exact .inr ⟨c, S, rfl, rfl, hlt⟩
    · exact .inl (forall_mem_cons.2 ⟨hn, hlt⟩)

theorem below (h : Adds c R (n :: S)) (hn : n < c) : Adds c (n :: R) S := by
  obtain ⟨hc, hR⟩ := pairwise_cons.1 h.sum
  -- only the second case of `next` is left
  obtain ⟨n', T, heq, rfl, hT⟩ := h.next.resolve_left fun hall =>
    Nat.lt_irrefl _ (Nat.lt_of_lt_of_le hn (hall n mem_cons_self))
  obtain ⟨rfl, rfl⟩ := List.cons.inj heq
  have hRn : ∀ x ∈ R, x < n := fun x hx => h.above x hx n mem_cons_self
  refine ⟨?_, h.stack.tail, fun x hx y hy => ?_, .inl hT⟩
  · exact pairwise_cons.2 ⟨forall_mem_cons.2 ⟨hn, hc⟩, pairwise_cons.2 ⟨hRn, hR⟩⟩
  · rcases mem_cons.1 hx with rfl | hx
    · exact hT y hy
    · exact h.above x hx y (mem_cons_of_mem _ hy)

end Adds

end CLangProject

import Mathlib

/-!
# Rows of subtrees with separators

A node of a multiway search tree has a row of children, each with the separator
on its left; the separator of the first child is never read. In
`Row P lo hi cells` every child satisfies `P` between its two separators, and
the row as a whole lies between `lo` and `hi`. The bounds are explicit, so that
they survive separators that are no key of the tree any more.

`Hole` is a row with one child taken out. It says between which bounds a
replacement has to lie (`Hole.fill`), and how a neighbour joins the hole
(`Hole.right`, `Hole.left`).
-/

namespace CLangProject

open List

variable {κ ν ο : Type*}

def Row (P : WithBot κ → WithTop κ → ν → Prop) (lo : WithBot κ) (hi : WithTop κ) :
    List (κ × ν) → Prop
  | [] => False
  | [p] => P lo hi p.2
  | p :: q :: r => P lo q.1 p.2 ∧ Row P q.1 hi (q :: r)

variable {P Q : WithBot κ → WithTop κ → ν → Prop} {lo lo' : WithBot κ} {hi hi' : WithTop κ}

variable {l r : List (κ × ν)} {k s : κ} {p q : κ × ν}

theorem Row.ne_nil (h : Row P lo hi l) : l ≠ [] := by
  rintro rfl
  exact h

theorem row_singleton : Row P lo hi [p] ↔ P lo hi p.2 := Iff.rfl

theorem row_cons_cons : Row P lo hi (p :: q :: r) ↔ P lo q.1 p.2 ∧ Row P q.1 hi (q :: r) := Iff.rfl

/-- The key of the first cell is not read. -/
theorem row_head {k' : κ} {c : ν} : Row P lo hi ((k, c) :: r) ↔ Row P lo hi ((k', c) :: r) := by
  cases r with
  | nil | cons q r => exact Iff.rfl

theorem row_append :
    Row P lo hi (p :: l ++ q :: r) ↔ Row P lo q.1 (p :: l) ∧ Row P q.1 hi (q :: r) := by
  induction l generalizing p lo with
  | nil => exact Iff.rfl
  | cons p' l ih =>
    simp only [cons_append, row_cons_cons]
    rw [← cons_append, ih, and_assoc]

theorem Row.exists_of_mem (h : Row P lo hi l) (hp : p ∈ l) : ∃ lo' hi', P lo' hi' p.2 := by
  induction l generalizing lo with
  | nil => exact h.elim
  | cons q l ih =>
    cases l with
    | nil =>
      obtain rfl := mem_singleton.1 hp
      exact ⟨lo, hi, h⟩
    | cons q' r =>
      rcases mem_cons.1 hp with rfl | hp
      · exact ⟨lo, q'.1, h.1⟩
      · exact ih h.2 hp

/-! ## Order -/

section Order

variable [LinearOrder κ]

/-- `k` lies from `lo` up to, not including, `hi`. -/
def Within (lo : WithBot κ) (hi : WithTop κ) (k : κ) : Prop := lo ≤ k ∧ (k : WithTop κ) < hi

theorem within_bot_top (k : κ) : Within ⊥ ⊤ k := ⟨bot_le, WithTop.coe_lt_top k⟩

theorem Within.above (h : Within lo hi k) (hs : s ≤ k) : Within (s : WithBot κ) hi k :=
  ⟨WithBot.coe_le_coe.2 hs, h.2⟩

theorem Within.below (h : Within lo hi k) (hs : k < s) : Within lo (s : WithTop κ) k :=
  ⟨h.1, WithTop.coe_lt_coe.2 hs⟩

theorem Within.lt (h : Within lo (s : WithTop κ) k) : k < s := WithTop.coe_lt_coe.1 h.2

theorem Within.ge (h : Within (s : WithBot κ) hi k) : s ≤ k := WithBot.coe_le_coe.1 h.1

/-- Every child has some key, so that the separators increase. -/
def Inhabits (P : WithBot κ → WithTop κ → ν → Prop) : Prop := ∀ lo hi c, P lo hi c →
    ∃ k, Within lo hi k

section

variable (hP : Inhabits P)
include hP

theorem Row.inhabits (h : Row P lo hi l) : ∃ k, Within lo hi k := by
  induction l generalizing lo with
  | nil => exact h.elim
  | cons p l ih =>
    cases l with
    | nil => exact hP _ _ _ h
    | cons q r =>
      obtain ⟨k, hk⟩ := hP _ _ _ h.1
      obtain ⟨k', hk'⟩ := ih h.2
      exact ⟨k', hk.1.trans (WithBot.coe_le_coe.2 (hk.lt.le.trans hk'.ge)), hk'.2⟩

/-- A key below the first separator is below all of them. -/
theorem Row.lt_sep (h : Row P q.1 hi (q :: r)) (hk : k < q.1) : ∀ q' ∈ q :: r, k < q'.1 := by
  induction r generalizing q with
  | nil => simpa using hk
  | cons q1 r ih =>
    intro q' hq'
    rcases mem_cons.1 hq' with rfl | hq'
    · exact hk
    · obtain ⟨x, hx⟩ := hP _ _ _ h.1
      exact ih h.2 (hk.trans_le (hx.ge.trans hx.lt.le)) q' hq'

/-- The separators increase. -/
theorem Row.tail_sorted (h : Row P lo hi l) : l.tail.Pairwise (·.1 < ·.1) := by
  induction l generalizing lo with
  | nil => exact .nil
  | cons p l ih =>
    match l, h with
    | [], _ => exact .nil
    | [q], _ => exact pairwise_singleton _ _
    | q :: q' :: r, h =>
      obtain ⟨x, hx⟩ := hP _ _ _ h.2.1
      exact pairwise_cons.2 ⟨h.2.2.lt_sep hP (hx.ge.trans_lt hx.lt), ih h.2⟩

/-- The entries of the children, from left to right. -/
theorem Row.sorted {f : ν → List (κ × ο)}
    (hf : ∀ lo hi c, P lo hi c → (f c).Pairwise (·.1 < ·.1) ∧ ∀ e ∈ f c, Within lo hi e.1)
    (h : Row P lo hi l) :
    (l.flatMap fun p => f p.2).Pairwise (·.1 < ·.1) ∧
      ∀ e ∈ l.flatMap fun p => f p.2, Within lo hi e.1 := by
  induction l generalizing lo with
  | nil => exact h.elim
  | cons p l ih =>
    cases l with
    | nil => simpa using hf _ _ _ h
    | cons q r =>
      obtain ⟨hsp, hwp⟩ := hf _ _ _ h.1
      obtain ⟨hs, hw⟩ := ih h.2
      obtain ⟨k, hk⟩ := hP _ _ _ h.1
      obtain ⟨k', hk'⟩ := h.2.inhabits hP
      rw [flatMap_cons]
      refine ⟨pairwise_append.2 ⟨hsp, hs, fun e he e' he' => ?_⟩, fun e he => ?_⟩
      · exact (hwp e he).lt.trans_le (hw e' he').ge
      · rcases mem_append.1 he with he | he
        · have hlt : e.1 < k' := (hwp e he).lt.trans_le hk'.ge
          exact ⟨(hwp e he).1, (WithTop.coe_lt_coe.2 hlt).trans hk'.2⟩
        · exact ⟨hk.1.trans (WithBot.coe_le_coe.2 (hk.lt.le.trans (hw e he).ge)), (hw e he).2⟩

end

/-- Each separator lies above the entries of the child on its left and not
above those of the child on its right. -/
theorem Row.separates {f : ν → List (κ × ο)}
    (hf : ∀ lo hi c, P lo hi c → ∀ e ∈ f c, Within lo hi e.1) (h : Row P lo hi l) :
    l.IsChain fun p q => (∀ e ∈ f p.2, e.1 < q.1) ∧ ∀ e ∈ f q.2, q.1 ≤ e.1 := by
  induction l generalizing lo with
  | nil => exact .nil
  | cons p l ih =>
    cases l with
    | nil => exact .singleton p
    | cons q r =>
      refine .cons_cons ⟨fun e he => (hf _ _ _ h.1 e he).lt, fun e he => ?_⟩ (ih h.2)
      cases r with
      | nil => exact (hf _ _ _ h.2 e he).ge
      | cons q' r => exact (hf _ _ _ h.2.1 e he).ge

end Order

/-! ## A row without one child -/

/-- The row `pre`, a child with the separator `s`, `post`, where the child has
to lie from `lo'` up to `hi'`. -/
structure Hole (P : WithBot κ → WithTop κ → ν → Prop) (lo : WithBot κ) (hi : WithTop κ)
    (pre : List (κ × ν)) (s : κ) (post : List (κ × ν)) (lo' : WithBot κ) (hi' : WithTop κ) :
    Prop where
  before : pre = [] ∧ lo' = lo ∨ Row P lo s pre ∧ lo' = s
  after : post = [] ∧ hi' = hi ∨ ∃ q r, post = q :: r ∧ hi' = q.1 ∧ Row P q.1 hi post

variable {pre post : List (κ × ν)} {s : κ} {c : ν}

theorem exists_hole (h : Row P lo hi (pre ++ (s, c) :: post)) :
    ∃ lo' hi', Hole P lo hi pre s post lo' hi' ∧ P lo' hi' c := by
  have hbefore : ∃ lo', (pre = [] ∧ lo' = lo ∨ Row P lo s pre ∧ lo' = s) ∧
      Row P lo' hi ((s, c) :: post) := by
    cases pre with
    | nil => exact ⟨lo, .inl ⟨rfl, rfl⟩, h⟩
    | cons p pre =>
      obtain ⟨h1, h2⟩ := row_append.1 h
      exact ⟨s, .inr ⟨h1, rfl⟩, h2⟩
  obtain ⟨lo', hlo, hrow⟩ := hbefore
  cases post with
  | nil => exact ⟨lo', hi, ⟨hlo, .inl ⟨rfl, rfl⟩⟩, hrow⟩
  | cons q r => exact ⟨lo', q.1, ⟨hlo, .inr ⟨q, r, rfl, rfl, hrow.2⟩⟩, hrow.1⟩

/-- Any row within the bounds of the hole may take the place of the child. -/
theorem Hole.fill (h : Hole P lo hi pre s post lo' hi') {mid : List (κ × ν)}
    (hmid : Row P lo' hi' ((s, c) :: mid)) : Row P lo hi (pre ++ (s, c) :: mid ++ post) := by
  have hright : Row P lo' hi ((s, c) :: mid ++ post) := by
    rcases h.after with ⟨rfl, rfl⟩ | ⟨q, r, rfl, rfl, hr⟩
    · rwa [append_nil]
    · exact row_append.2 ⟨hmid, hr⟩
  rw [append_assoc]
  rcases h.before with ⟨rfl, rfl⟩ | ⟨hpre, rfl⟩
  · exact hright
  · cases pre with
    | nil => exact hpre.elim
    | cons p pre => exact row_append.2 ⟨hpre, hright⟩

theorem Hole.fill_one (h : Hole P lo hi pre s post lo' hi') (hc : P lo' hi' c) :
    Row P lo hi (pre ++ (s, c) :: post) := by
  simpa using h.fill (row_singleton.2 hc : Row P lo' hi' [(s, c)])

/-- The hole together with the child on its right. -/
theorem Hole.right (h : Hole P lo hi pre s (q :: post) lo' hi') :
    hi' = q.1 ∧ ∃ hi'', P q.1 hi'' q.2 ∧ Hole P lo hi pre s post lo' hi'' := by
  rcases h.after with ⟨hnil, -⟩ | ⟨q', r, heq, rfl, hrow⟩
  · cases hnil
  · cases heq
    refine ⟨rfl, ?_⟩
    cases post with
    | nil => exact ⟨hi, hrow, h.before, .inl ⟨rfl, rfl⟩⟩
    | cons q'' r => exact ⟨q''.1, hrow.1, h.before, .inr ⟨q'', r, rfl, rfl, hrow.2⟩⟩

/-- The hole together with the child on its left. -/
theorem Hole.left (h : Hole P lo hi (pre ++ [q]) s post lo' hi') :
    lo' = s ∧ ∃ lo'', P lo'' s q.2 ∧ Hole P lo hi pre q.1 post lo'' hi' := by
  rcases h.before with ⟨hnil, -⟩ | ⟨hrow, rfl⟩
  · simp at hnil
  · refine ⟨rfl, ?_⟩
    cases pre with
    | nil => exact ⟨lo, hrow, .inl ⟨rfl, rfl⟩, h.after⟩
    | cons p pre =>
      obtain ⟨h1, h2⟩ := row_append.1 hrow
      exact ⟨q.1, h2, .inr ⟨h1, rfl⟩, h.after⟩

/-! ## The entries around a hole -/

section Order

variable [LinearOrder κ] {f : ν → List (κ × ο)}

section

variable (hP : Inhabits P)
include hP

theorem Hole.lo_le (h : Hole P lo hi pre s post lo' hi') : lo ≤ lo' := by
  rcases h.before with ⟨-, rfl⟩ | ⟨hrow, rfl⟩
  · exact le_rfl
  · obtain ⟨k, hk⟩ := hrow.inhabits hP
    exact hk.1.trans (WithBot.coe_le_coe.2 hk.lt.le)

theorem Hole.le_hi (h : Hole P lo hi pre s post lo' hi') : hi' ≤ hi := by
  rcases h.after with ⟨-, rfl⟩ | ⟨q, r, rfl, rfl, hrow⟩
  · exact le_rfl
  · obtain ⟨k, hk⟩ := hrow.inhabits hP
    exact (WithTop.coe_le_coe.2 hk.ge).trans hk.2.le

/-- The entries on the left of a hole are below its bounds. -/
theorem Hole.left_lt (hf : ∀ lo hi c, P lo hi c → (f c).Pairwise (·.1 < ·.1) ∧
      ∀ e ∈ f c, Within lo hi e.1)
    (h : Hole P lo hi pre s post lo' hi') :
    ∀ e ∈ pre.flatMap fun p => f p.2, (e.1 : WithBot κ) < lo' := by
  intro e he
  rcases h.before with ⟨rfl, -⟩ | ⟨hrow, rfl⟩
  · simp at he
  · exact WithBot.coe_lt_coe.2 ((hrow.sorted hP hf).2 e he).lt

/-- The entries on the right of a hole are not below its bounds. -/
theorem Hole.le_right (hf : ∀ lo hi c, P lo hi c → (f c).Pairwise (·.1 < ·.1) ∧
      ∀ e ∈ f c, Within lo hi e.1)
    (h : Hole P lo hi pre s post lo' hi') :
    ∀ e ∈ post.flatMap fun p => f p.2, hi' ≤ (e.1 : WithTop κ) := by
  intro e he
  rcases h.after with ⟨rfl, -⟩ | ⟨q, r, rfl, rfl, hrow⟩
  · simp at he
  · exact WithTop.coe_le_coe.2 ((hrow.sorted hP hf).2 e he).ge

end

end Order

end CLangProject

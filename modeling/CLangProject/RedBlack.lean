import CLangProject.LeafContext

/-!
# Red-black leaf trees

The tag of a node is its colour. A leaf tree is red-black when it is in search
order, its root is black, no red node has a red child and all paths from the
root to a leaf have the same number of black nodes (`RedBlack`). Below the root
the last two conditions are kept together in `Bal t n`, with the number `n` as
a parameter.

An algorithm that works at one place of a red-black tree may put another
subtree of the same black count there (`Bal.of_plug`). `Held` says that a
search for `k` has come to such a place.
-/

namespace CLangProject

open List

inductive Color where
  | red
  | black
  deriving DecidableEq, Repr

/-- What a node adds to the black count of the paths through it. -/
def Color.weight : Color → Nat
  | .red => 0
  | .black => 1

@[simp] theorem Color.weight_red : Color.red.weight = 0 := rfl

@[simp] theorem Color.weight_black : Color.black.weight = 1 := rfl

variable {c : Color}

theorem Color.ne_black : c ≠ .black ↔ c = .red := by cases c <;> simp

theorem Color.ne_red : c ≠ .red ↔ c = .black := by cases c <;> simp

namespace LeafTree

variable {κ ο : Type*}

variable {n : Nat} {c : Color} {d : Dir} {k : κ} {t t' a b : LeafTree Color κ ο}

theorem red_shape (d : Dir) (t : LeafTree Color κ ο) (h : t.tag = .red) :
    (∃ k o, t = leaf .red k o) ∨ ∃ k a b, t = join d .red k a b := by
  rcases leaf_or_join d t with ⟨c, k, o, rfl⟩ | ⟨c, k, a, b, rfl⟩
  · obtain rfl : c = .red := h
    exact .inl ⟨k, o, rfl⟩
  · obtain rfl : c = .red := by simpa using h
    exact .inr ⟨k, a, b, rfl⟩

/-! ## Balance -/

def NoRedRed : LeafTree Color κ ο → Prop
  | leaf _ _ _ => True
  | node c _ l r =>
    (c = .red → l.tag = .black ∧ r.tag = .black) ∧ l.NoRedRed ∧ r.NoRedRed

instance decidableNoRedRed : (t : LeafTree Color κ ο) → Decidable t.NoRedRed
  | leaf _ _ _ => inferInstanceAs (Decidable True)
  | node c _ l r =>
    have := decidableNoRedRed l
    have := decidableNoRedRed r
    inferInstanceAs (Decidable ((c = .red → l.tag = .black ∧ r.tag = .black) ∧
      l.NoRedRed ∧ r.NoRedRed))

/-- The number of black nodes on each path from the root to a leaf. -/
def blackCounts : LeafTree Color κ ο → List Nat
  | leaf c _ _ => [c.weight]
  | node c _ l r => (l.blackCounts ++ r.blackCounts).map (· + c.weight)

/-- All paths from the root to a leaf have the same number of black nodes. -/
def EvenBlack (t : LeafTree Color κ ο) : Prop := ∀ m ∈ t.blackCounts, ∀ n ∈ t.blackCounts, m = n

instance (t : LeafTree Color κ ο) : Decidable t.EvenBlack := by unfold EvenBlack; infer_instance

/-- No red node has a red child and every path has `n` black nodes. -/
def Bal : LeafTree Color κ ο → Nat → Prop
  | leaf c _ _, n => n = c.weight
  | node c _ l r, n => (c = .red → l.tag = .black ∧ r.tag = .black) ∧
      ∃ m, n = m + c.weight ∧ l.Bal m ∧ r.Bal m

theorem blackCounts_ne_nil (t : LeafTree Color κ ο) : ∃ n, n ∈ t.blackCounts := by
  induction t with
  | leaf c k o => exact ⟨c.weight, by simp [blackCounts]⟩
  | node c k l r ihl _ =>
    obtain ⟨n, hn⟩ := ihl
    exact ⟨n + c.weight, by simp [blackCounts, hn]⟩

theorem bal_iff : t.Bal n ↔ t.NoRedRed ∧ ∀ m ∈ t.blackCounts, m = n := by
  induction t generalizing n with
  | leaf c k o => simp [Bal, NoRedRed, blackCounts, eq_comm]
  | node c k l r ihl ihr =>
    constructor
    · rintro ⟨hc, m, rfl, hl, hr⟩
      obtain ⟨hl, hlm⟩ := ihl.1 hl
      obtain ⟨hr, hrm⟩ := ihr.1 hr
      refine ⟨⟨hc, hl, hr⟩, fun x hx => ?_⟩
      obtain ⟨y, hy, rfl⟩ := mem_map.1 hx
      rcases mem_append.1 hy with hy | hy
      · rw [hlm y hy]
      · rw [hrm y hy]
    · rintro ⟨⟨hc, hl, hr⟩, hn⟩
      obtain ⟨m, hm⟩ := l.blackCounts_ne_nil
      have hx : ∀ x ∈ l.blackCounts ++ r.blackCounts, x + c.weight = n :=
        fun x hx => hn _ (mem_map_of_mem hx)
      have hmn := hx m (mem_append_left _ hm)
      refine ⟨hc, m, hmn.symm, ihl.2 ⟨hl, fun x h => ?_⟩, ihr.2 ⟨hr, fun x h => ?_⟩⟩
      · have := hx x (mem_append_left _ h)
        omega
      · have := hx x (mem_append_right _ h)
        omega

theorem exists_bal_iff : (∃ n, t.Bal n) ↔ t.NoRedRed ∧ t.EvenBlack := by
  constructor
  · rintro ⟨n, h⟩
    obtain ⟨hr, hn⟩ := bal_iff.1 h
    exact ⟨hr, fun x hx y hy => (hn x hx).trans (hn y hy).symm⟩
  · rintro ⟨hr, he⟩
    obtain ⟨n, hn⟩ := t.blackCounts_ne_nil
    exact ⟨n, bal_iff.2 ⟨hr, fun x hx => he x hx n hn⟩⟩

theorem evenBlack_node {l r : LeafTree Color κ ο} :
    (node c k l r).EvenBlack ↔ ∀ m ∈ l.blackCounts ++ r.blackCounts,
      ∀ n ∈ l.blackCounts ++ r.blackCounts, m = n := by
  simp only [EvenBlack, blackCounts, forall_mem_map, Nat.add_right_cancel_iff]

@[simp] theorem evenBlack_paint : (t.paint c).EvenBlack ↔ t.EvenBlack := by
  cases t with
  | leaf => simp [paint, EvenBlack, blackCounts]
  | node => rw [paint, evenBlack_node, evenBlack_node]

variable {m : Nat}

theorem bal_unique (hm : t.Bal m) (hn : t.Bal n) : m = n := by
  obtain ⟨x, hx⟩ := t.blackCounts_ne_nil
  exact ((bal_iff.1 hm).2 x hx).symm.trans ((bal_iff.1 hn).2 x hx)

@[simp] theorem bal_leaf {o : ο} : (leaf c k o).Bal n ↔ n = c.weight := Iff.rfl

theorem bal_join : (join d c k a b).Bal n ↔ (c = .red → a.tag = .black ∧ b.tag = .black) ∧
      ∃ m, n = m + c.weight ∧ a.Bal m ∧ b.Bal m := by
  cases d
  · exact Iff.rfl
  · simp only [join, Bal, and_comm]

@[simp] theorem bal_join_red :
    (join d .red k a b).Bal n ↔ a.tag = .black ∧ b.tag = .black ∧ a.Bal n ∧ b.Bal n := by
  simp [bal_join, and_assoc]

@[simp] theorem bal_join_black : (join d .black k a b).Bal (n + 1) ↔ a.Bal n ∧ b.Bal n := by
  simp [bal_join]

theorem bal_black (h : (join d .black k a b).Bal n) : ∃ m, n = m + 1 ∧ a.Bal m ∧ b.Bal m := by
  simpa [bal_join] using h

/-- Painting the root black adds one to the count of a red tree. -/
theorem Bal.paint_black (h : t.Bal n) (hc : t.tag = .red) : (t.paint .black).Bal (n + 1) := by
  cases t with
  | leaf c k o =>
    obtain rfl : c = .red := hc
    exact congrArg (· + 1) h
  | node c k l r =>
    obtain rfl : c = .red := hc
    obtain ⟨-, m, hm, hl, hr⟩ := h
    exact ⟨by simp, m, congrArg (· + 1) hm, hl, hr⟩

theorem Bal.pos_of_black (h : t.Bal n) (hc : t.tag = .black) : 1 ≤ n := by
  cases t with
  | leaf c k o =>
    obtain rfl : c = .black := hc
    exact Nat.le_of_eq (Eq.symm h)
  | node c k l r =>
    obtain rfl : c = .black := hc
    obtain ⟨-, m, rfl, -, -⟩ := h
    exact Nat.le_add_left 1 m

/-- A red subtree with a black node below it is a node with black children. -/
theorem Bal.red_join (h : t.Bal n) (hc : t.tag = .red)
    (hn : 1 ≤ n) (d : Dir) : ∃ k a b, t = join d .red k a b ∧
      a.tag = .black ∧ b.tag = .black ∧ a.Bal n ∧ b.Bal n := by
  rcases leaf_or_join d t with ⟨c, k, o, rfl⟩ | ⟨c, k, a, b, rfl⟩
  · obtain rfl : c = .red := hc
    rw [bal_leaf.1 h] at hn
    exact absurd hn (by decide)
  · obtain rfl : c = .red := by simpa using hc
    exact ⟨k, a, b, rfl, bal_join_red.1 h⟩

/-- A black subtree with two black nodes on a path is a node. -/
theorem Bal.black_join (h : t.Bal (n + 1)) (hc : t.tag = .black)
    (hn : 1 ≤ n) (d : Dir) : ∃ k a b, t = join d .black k a b ∧ a.Bal n ∧ b.Bal n := by
  rcases leaf_or_join d t with ⟨c, k, o, rfl⟩ | ⟨c, k, a, b, rfl⟩
  · obtain rfl : c = .black := hc
    have := bal_leaf.1 h
    simp at this
    omega
  · obtain rfl : c = .black := by simpa using hc
    exact ⟨k, a, b, rfl, bal_join_black.1 h⟩

/-- A tree with `n` black nodes on each path has `2 ^ (n - 1)` entries. -/
theorem Bal.two_pow_le (h : t.Bal n) : 2 ^ (n - 1) ≤ t.toList.length := by
  induction t generalizing n with
  | leaf c k o =>
    obtain rfl := bal_leaf.1 h
    cases c <;> simp [toList]
  | node c k l r ihl ihr =>
    obtain ⟨-, m, rfl, hl, hr⟩ := h
    have hl := ihl hl
    have hr := ihr hr
    have hpow : 2 ^ (m + c.weight - 1) ≤ 2 ^ (m - 1) + 2 ^ (m - 1) := by
      rw [← Nat.two_mul, ← Nat.pow_succ']
      refine Nat.pow_le_pow_right (by decide) ?_
      cases c <;> simp only [Color.weight_red, Color.weight_black] <;> omega
    simp only [toList, length_append]
    omega

/-- One node more on a path whose nodes are at least every other one black:
`x` and `m` are the length and the black count below the node. -/
theorem length_le_step {c' : Color} {x y : Nat} (hc : c = .red → c' = .black)
    (h1 : x ≤ y + 1 + 2 * m) (h2 : c' = .black → x < y + 1 + 2 * m) :
    x ≤ y + 2 * (m + c.weight) ∧ (c = .black → x < y + 2 * (m + c.weight)) := by
  cases c with
  | red =>
    have := h2 (hc rfl)
    simp only [Color.weight_red]
    exact ⟨by omega, fun hb => by cases hb⟩
  | black =>
    simp only [Color.weight_black]
    exact ⟨by omega, fun _ => by omega⟩

/-- The subtree at a place of a balanced tree is balanced, and any other one
with its black count may stand there instead, unless it brings a red root
where there was a black one. -/
theorem Bal.of_plug (fs : Context Color κ ο) (h : (plug fs t).Bal n) :
    ∃ m, t.Bal m ∧ ∀ t' : LeafTree Color κ ο, t'.Bal m → (t'.tag = .red → t.tag = .red) →
      (plug fs t').Bal n ∧ ((plug fs t').tag = .red → (plug fs t).tag = .red) := by
  induction fs generalizing t with
  | nil => exact ⟨n, h, fun t' h' hc => ⟨h', hc⟩⟩
  | cons f fs ih =>
    obtain ⟨m, hm, hrep⟩ := ih h
    obtain ⟨hc, m', rfl, ht, ho⟩ := bal_join.1 hm
    refine ⟨m', ht, fun t' h' hcol => hrep (f.fill t') (bal_join.2 ⟨fun hf => ?_, m', rfl, h', ho⟩)
      (by simp [Frame.fill])⟩
    refine ⟨Color.ne_red.1 fun hr => ?_, (hc hf).2⟩
    have := hcol hr
    simp [(hc hf).1] at this

theorem evenBlack_join : (join d c k a b).EvenBlack ↔ ∀ m ∈ a.blackCounts ++ b.blackCounts,
      ∀ n ∈ a.blackCounts ++ b.blackCounts, m = n := by
  cases d
  · exact evenBlack_node
  · simp only [join, evenBlack_node, mem_append, or_comm]

theorem EvenBlack.of_join (h : (join d c k a b).EvenBlack) : a.EvenBlack ∧ b.EvenBlack := by
  have h := evenBlack_join.1 h
  exact ⟨fun x hx y hy => h x (by simp [hx]) y (by simp [hy]),
    fun x hx y hy => h x (by simp [hx]) y (by simp [hy])⟩

theorem EvenBlack.join_count (h : (join d c k a b).EvenBlack) (ha : a.Bal m) (hb : b.Bal n) :
    m = n := by
  obtain ⟨x, hx⟩ := a.blackCounts_ne_nil
  obtain ⟨y, hy⟩ := b.blackCounts_ne_nil
  rw [← (bal_iff.1 ha).2 x hx, ← (bal_iff.1 hb).2 y hy]
  exact evenBlack_join.1 h x (by simp [hx]) y (by simp [hy])

/-- Every subtree of a tree with even black counts has even black counts. -/
theorem EvenBlack.of_plug {fs : Context Color κ ο} (h : (plug fs t).EvenBlack) : t.EvenBlack := by
  induction fs generalizing t with
  | nil => exact h
  | cons f fs ih => exact (of_join (ih h)).1

/-! ## Red-black trees -/

section Order

variable [LinearOrder κ]

structure RedBlack (t : LeafTree Color κ ο) : Prop where
  search : t.Search
  rootBlack : t.tag = .black
  noRedRed : t.NoRedRed
  evenBlack : t.EvenBlack

instance (t : LeafTree Color κ ο) : Decidable t.RedBlack :=
  decidable_of_iff (t.Search ∧ t.tag = .black ∧ t.NoRedRed ∧ t.EvenBlack)
    ⟨fun ⟨h1, h2, h3, h4⟩ => ⟨h1, h2, h3, h4⟩, fun ⟨h1, h2, h3, h4⟩ => ⟨h1, h2, h3, h4⟩⟩

theorem redBlack_iff : t.RedBlack ↔ t.Search ∧ t.tag = .black ∧ ∃ n, t.Bal n := by
  rw [exists_bal_iff]
  constructor
  · rintro ⟨hs, hb, hr, he⟩
    exact ⟨hs, hb, hr, he⟩
  · rintro ⟨hs, hb, hr, he⟩
    exact ⟨hs, hb, hr, he⟩

/-- `t` stands at the place `fs` of a red-black tree with the entries `es`,
where the search for `k` has come to. -/
structure Held (k : κ) (es : List (κ × ο)) (fs : Context Color κ ο) (t : LeafTree Color κ ο) :
    Prop where
  redBlack : (plug fs t).RedBlack
  guides : Guides k fs
  entries : ∀ p, p ∈ (plug fs t).toList ↔ p ∈ es

variable {k : κ} {es : List (κ × ο)} {fs : Context Color κ ο} {t : LeafTree Color κ ο}

theorem Held.placed (h : Held k es fs t) : Placed k es fs t :=
  ⟨h.redBlack.search, h.guides, h.entries⟩

theorem Held.search (h : Held k es fs t) : t.Search := h.placed.search

theorem Held.bal (h : Held k es fs t) : ∃ n, t.Bal n := by
  obtain ⟨-, -, n, hn⟩ := redBlack_iff.1 h.redBlack
  obtain ⟨m, hm, -⟩ := hn.of_plug
  exact ⟨m, hm⟩

theorem RedBlack.held (h : t.RedBlack) (k : κ) : Held k t.toList [] t :=
  ⟨h, by simp [Guides], fun _ => Iff.rfl⟩

/-- Go down one step, in the direction of the search. -/
theorem Held.down {k' : κ} (h : Held k es fs (join d c k' a b)) (hd : toward k k' = d) :
    Held k es (⟨d, c, k', b⟩ :: fs) a :=
  ⟨h.redBlack, h.guides.cons (toward_eq_iff.1 hd), h.entries⟩

theorem Held.up {f : Frame Color κ ο} (h : Held k es (f :: fs) t) : Held k es fs (f.fill t) :=
  ⟨h.redBlack, (forall_mem_cons.1 h.guides).2, h.entries⟩

/-- Put another subtree at the place: one of the same black count, in search
order, with no new key but `k`. -/
theorem Held.replace (h : Held k es fs t) (hs : t'.Search)
    (hm : ∀ p ∈ t'.toList, p ∈ t.toList ∨ p.1 = k) (hbal : ∀ n, t.Bal n → t'.Bal n)
    (hc : t'.tag = .red → t.tag = .red) : (plug fs t').RedBlack := by
  obtain ⟨-, hb, n, hn⟩ := redBlack_iff.1 h.redBlack
  obtain ⟨m, hmt, hrep⟩ := hn.of_plug
  obtain ⟨hbal', hcol⟩ := hrep t' (hbal m hmt) hc
  refine redBlack_iff.2 ⟨h.placed.replace hs hm, Color.ne_red.1 fun hr => ?_, n, hbal'⟩
  exact absurd (hcol hr) (by simp [hb])

variable {as : List (Edit Color)}

section

variable (h : Held k es fs t) (ht' : t.edits as = some t')
include h ht'

/-- Rearrange the subtree without changing its black count. -/
theorem Held.edits (hbal : ∀ n, t.Bal n → t'.Bal n) (hc : t'.tag = .red → t.tag = .red) :
    Held k es fs t' := by
  obtain ⟨hmem, hsearch⟩ := edits_keeps ht'
  exact ⟨h.replace (hsearch h.search) (fun p hp => .inl ((hmem p).1 hp)) hbal hc, h.guides,
    (h.placed.rearrange (hsearch h.search) hmem).entries⟩

theorem Held.edits_of_bal (hn : t.Bal n)
    (hn' : t'.Bal n) (hc : t'.tag = .red → t.tag = .red) : Held k es fs t' :=
  h.edits ht' (fun _ hm => bal_unique hn hm ▸ hn') hc

end

/-- At the root the black count may change. -/
theorem Held.edits_root (h : Held k es [] t) (ht' : t.edits as = some t') (hbal : t'.Bal n)
    (hc : t'.tag = .black) : Held k es [] t' := by
  obtain ⟨hmem, hsearch⟩ := edits_keeps ht'
  exact ⟨redBlack_iff.2 ⟨hsearch h.search, hc, n, hbal⟩, h.guides,
    fun p => (hmem p).trans (h.entries p)⟩

/-- Adding an entry with the key `k` to the subtree adds it to the tree. -/
theorem Held.insert (h : Held k es fs t) {o : ο} (hs : t'.Search)
    (hm : ∀ p, p ∈ t'.toList ↔ p ∈ t.toList ∨ p = (k, o)) (hbal : ∀ n, t.Bal n → t'.Bal n)
    (hc : t'.tag = .red → t.tag = .red) :
    (plug fs t').RedBlack ∧ ∀ p, p ∈ (plug fs t').toList ↔ p ∈ es ∨ p = (k, o) := by
  exact ⟨h.replace hs (fun p hp => ((hm p).1 hp).imp_right fun hp => by rw [hp]) hbal hc,
    h.placed.insert hm⟩

/-- Taking the entry with the key `k` out of the subtree takes it out of the
tree. -/
theorem Held.erase (h : Held k es fs t) (hs : t'.Search)
    (hm : ∀ p, p ∈ t'.toList ↔ p ∈ t.toList ∧ p.1 ≠ k) (hbal : ∀ n, t.Bal n → t'.Bal n)
    (hc : t'.tag = .red → t.tag = .red) :
    (plug fs t').RedBlack ∧ ∀ p, p ∈ (plug fs t').toList ↔ p ∈ es ∧ p.1 ≠ k := by
  exact ⟨h.replace hs (fun p hp => .inl ((hm p).1 hp).1) hbal hc, h.placed.erase hm⟩

/-! ## Searching -/

theorem Held.descend (h : Held k es fs t) : Held k es (descend k t fs).2 (descend k t fs).1 :=
  ⟨by rw [plug_descend]; exact h.redBlack, h.placed.descend.guides, h.placed.descend.entries⟩

theorem Bal.length_descend (h : t.Bal n) (fs : Context Color κ ο) :
    (LeafTree.descend k t fs).2.length ≤ fs.length + 2 * n ∧
      (t.tag = .black → (LeafTree.descend k t fs).2.length < fs.length + 2 * n) := by
  fun_induction LeafTree.descend k t fs generalizing n with
  | case1 c k' o fs =>
    obtain rfl := bal_leaf.1 h
    cases c <;> simp [tag]
  | case2 c k' l r fs hk ih =>
    obtain ⟨hc, m, rfl, hl, -⟩ := h
    exact length_le_step (fun h => (hc h).1) (ih hl).1 (ih hl).2
  | case3 c k' l r fs hk ih =>
    obtain ⟨hc, m, rfl, -, hr⟩ := h
    exact length_le_step (fun h => (hc h).2) (ih hr).1 (ih hr).2

/-- The search path in a red-black tree is at most twice as long as the
number of bits of a key. -/
theorem RedBlack.length_descend [Fintype κ] {b : Nat} (hκ : Fintype.card κ ≤ 2 ^ b)
    (h : t.RedBlack) : (LeafTree.descend k t []).2.length ≤ 2 * b + 1 := by
  obtain ⟨hs, hb, n, hn⟩ := redBlack_iff.1 h
  have hpow : 2 ^ (n - 1) ≤ 2 ^ b := hn.two_pow_le.trans (hs.length_le_card.trans hκ)
  have hle : n - 1 ≤ b := (Nat.pow_le_pow_iff_right (by decide)).1 hpow
  have hlt := (hn.length_descend (k := k) []).2 hb
  simp only [length_nil] at hlt
  omega

/-! ## Possibly empty trees -/

def Root.RedBlack : Root Color κ ο → Prop
  | none => True
  | some t => LeafTree.RedBlack t

instance : (t : Root Color κ ο) → Decidable t.RedBlack
  | none => inferInstanceAs (Decidable True)
  | some t => inferInstanceAs (Decidable (LeafTree.RedBlack t))

theorem Root.RedBlack.search {t : Root Color κ ο} (h : t.RedBlack) : t.Search := by
  cases t with
  | none => trivial
  | some t => exact LeafTree.RedBlack.search h

end Order

end LeafTree

end CLangProject

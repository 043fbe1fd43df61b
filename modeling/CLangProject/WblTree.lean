import CLangProject.Key
import CLangProject.LeafStore

/-!
# The weight-balanced tree of `ch3/w_bl_tree.c`

The tag of a node is its weight, the number of leaves below it. On the way up
`insert` and `delete` rotate a node when one of its children has less than
`alpha` times its weight, with a double rotation unless the outer grandchild
has more than `alpha + epsilon` times the weight.

That this restores the balance is a matter of arithmetic. The weights on both
sides have changed by one since the node was in balance (`Shifted`), and
`outer_ok` and `inner_ok` show that then the weights after the rotation are in
balance again.

A weight is an `int`, and an addition that exceeds it has no result. The keys are
twice as many as an `int` can count, so that it does happen: exactly when a new key
is inserted into a tree with `2 ^ 31 - 1` keys (`Full`).
-/

namespace CLangProject.WblTree

open LeafTree

variable {κ ο : Type}

/-! ## The code -/

/-- `ALPHA`. -/
def alpha : Rat := 288 / 1000

/-- `EPSILON`. -/
def epsilon : Rat := 5 / 1000

/-- Set the weight of the node at the end of a path to the sum of the weights
of its children; no result if the sum is not an `int`. -/
def addWeights (p : List Dir) (t : LeafTree Int κ ο) : Option (LeafTree Int κ ο) := do
  let left ← t.tagAt (p ++ [.left])
  let right ← t.tagAt (p ++ [.right])
  if -2147483648 ≤ left + right ∧ left + right ≤ 2147483647 then
    t.modify (fun t => some (t.paint (left + right))) p
  else none

/-- The rotations when the child of `tmp_node` on side `d` is too heavy. -/
def repair (d : Dir) (tmp : LeafTree Int κ ο) : Option (LeafTree Int κ ο) := do
  if ((← tmp.tagAt [d, d]) : Rat) > (alpha + epsilon) * tmp.tag then
    let tmp ← rotation d.flip tmp
    addWeights [d.flip] tmp
  else
    let tmp ← tmp.modify (rotation d) [d]
    let tmp ← rotation d.flip tmp
    let tmp ← addWeights [.right] tmp
    addWeights [.left] tmp

/-- The body of the loop that goes up. -/
def balance (tmp : LeafTree Int κ ο) : Option (LeafTree Int κ ο) := do
  let tmp ← addWeights [] tmp
  let left ← tmp.tagAt [.left]
  let right ← tmp.tagAt [.right]
  if (right : Rat) < alpha * tmp.tag then repair .left tmp
  else if (left : Rat) < alpha * tmp.tag then repair .right tmp
  else some tmp

/-- The loop `while ( path_st_p > 0 )`: the first argument is the stack, the
second the subtree below its top. -/
def rebalance : Context Int κ ο → LeafTree Int κ ο → Option (LeafTree Int κ ο)
  | [], t => some t
  | f :: fs, t => (balance (f.fill t)).bind (rebalance fs)

/-- The parts of `insert` and `delete`: a leaf has the weight 1 and the parent
of two leaves the weight 2. -/
def method : Method Int κ ο where
  limit := pathStack
  first := 1
  split _ := 1
  grow _ := 2
  rebalance := rebalance

section Calls

variable [LinearOrder κ]

def find (t : Root Int κ ο) (k : κ) : Option ο := t.find k

def insert (t : Root Int κ ο) (k : κ) (o : ο) : Option (Root Int κ ο × Int) := method.insert t k o

def delete (t : Root Int κ ο) (k : κ) : Option (Root Int κ ο × Option ο) := method.delete t k

def store : Store (Root Int κ ο) κ ο where
  insert := insert
  delete := delete
  find t k := some (find t k)

end Calls

/-! ## Arithmetic of the weights -/

/-- Two siblings of weights `a` and `b` are in balance. -/
def Even (a b : Nat) : Prop := 288 * (a + b) ≤ 1000 * a ∧ 288 * (a + b) ≤ 1000 * b

theorem Even.symm {a b : Nat} (h : Even a b) : Even b a := by
  unfold Even at *
  omega

/-- The siblings were in balance before one leaf was added on the side of `a`
or removed on the side of `b`. -/
def Shifted (a b : Nat) : Prop := (1 ≤ a ∧ Even (a - 1) b) ∨ Even a (b + 1)

variable {a b p q : Nat}

/-- The light side misses less than one leaf. -/
theorem Shifted.le (hs : Shifted a b) : 288 * (a + b) ≤ 1000 * b + 712 := by
  unfold Shifted Even at hs
  omega

variable {r : Nat}

/-- Weights `a`, `b` of the children of the heavy child and `r` of its sibling,
after a single rotation. -/
theorem outer_ok (hr : 1 ≤ r) (hs : Shifted (a + b) r) (hab : Even a b)
    (hlight : 1000 * r < 288 * (a + b + r)) (hout : 293 * (a + b + r) < 1000 * a) :
    Even a (b + r) ∧ Even b r := by
  have hle := hs.le
  clear hs
  unfold Even at *
  refine ⟨⟨by omega, by omega⟩, by omega, ?_⟩
  rcases Nat.lt_or_ge (a + b + r) 9 with hw | hw
  · have : r ≤ 2 := by omega
    interval_cases r <;> omega
  · omega

/-- The inner child, with children of weights `p` and `q`, goes up in a double
rotation. -/
theorem inner_ok (hr : 1 ≤ r) (hs : Shifted (a + (p + q)) r) (hab : Even a (p + q)) (hpq : Even p q)
    (hlight : 1000 * r < 288 * (a + (p + q) + r)) (hin : 1000 * a ≤ 293 * (a + (p + q) + r)) :
    Even (a + p) (q + r) ∧ Even a p ∧ Even q r := by
  have hle := hs.le
  clear hs
  unfold Even at *
  refine ⟨⟨by omega, ?_⟩, ⟨by omega, by omega⟩, by omega, ?_⟩
  · rcases Nat.lt_or_ge (a + (p + q) + r) 9 with hw | hw
    · have : r ≤ 2 := by omega
      interval_cases r <;> omega
    · omega
  · rcases Nat.lt_or_ge (a + (p + q) + r) 9 with hw | hw
    · have : r ≤ 2 := by omega
      interval_cases r <;> omega
    · omega

theorem inner_two_le (hr : 1 ≤ r) (hlight : 1000 * r < 288 * (a + b + r))
    (hin : 1000 * a ≤ 293 * (a + b + r)) : 2 ≤ b := by
  omega

theorem light_iff {r w : Int} : (r : Rat) < alpha * w ↔ 1000 * r < 288 * w := by
  have hcast : ((1000 * r : Int) : Rat) < ((288 * w : Int) : Rat) ↔ 1000 * r < 288 * w :=
    Int.cast_lt
  rw [← hcast]
  push_cast
  unfold alpha
  constructor <;> intro h <;> linarith

theorem outer_iff {r w : Int} : (r : Rat) > (alpha + epsilon) * w ↔ 293 * w < 1000 * r := by
  have hcast : ((293 * w : Int) : Rat) < ((1000 * r : Int) : Rat) ↔ 293 * w < 1000 * r :=
    Int.cast_lt
  rw [← hcast]
  push_cast
  unfold alpha epsilon
  constructor <;> intro h <;> linarith

/-! ## Balanced trees -/

/-- The recorded weights are right, siblings are in balance, and the tree has
`n` leaves. -/
def Wb : LeafTree Int κ ο → Nat → Prop
  | leaf w _ _, n => n = 1 ∧ w = 1
  | node w _ l r, n => w = n ∧ ∃ a b, Wb l a ∧ Wb r b ∧ Even a b ∧ n = a + b

variable {d : Dir} {w : Int} {k : κ} {x y t : LeafTree Int κ ο} {n : Nat}

theorem wb_join : Wb (join d w k x y) n ↔
    w = n ∧ ∃ a b, Wb x a ∧ Wb y b ∧ Even a b ∧ n = a + b := by
  cases d with
  | left => exact Iff.rfl
  | right =>
    refine and_congr_right fun _ => ⟨?_, ?_⟩
    all_goals
      rintro ⟨a, b, hx, hy, hab, rfl⟩
      exact ⟨b, a, hy, hx, hab.symm, Nat.add_comm _ _⟩

theorem Wb.tag (ht : Wb t n) : t.tag = n := by
  cases t with
  | leaf => exact ht.2.trans (by rw [ht.1]; rfl)
  | node => exact ht.1

theorem Wb.pos (ht : Wb t n) : 1 ≤ n := by
  induction t generalizing n with
  | leaf => exact Nat.le_of_eq ht.1.symm
  | node w k l r ihl ihr =>
    obtain ⟨-, a, b, hl, hr, -, rfl⟩ := ht
    exact (ihl hl).trans (Nat.le_add_right a b)

theorem Wb.join (hx : Wb x a) (hy : Wb y b) (hab : Even a b) :
    Wb (join d ((a : Int) + b) k x y) (a + b) :=
  wb_join.2 ⟨by push_cast; rfl, a, b, hx, hy, hab, rfl⟩

/-- A tree with two leaves is a node. -/
theorem Wb.exists_join (ht : Wb t n) (hn : 2 ≤ n) (d : Dir) :
    ∃ w k x y a b, t = LeafTree.join d w k x y ∧ Wb x a ∧ Wb y b ∧ Even a b ∧ n = a + b := by
  rcases leaf_or_join d t with ⟨c, k, o, rfl⟩ | ⟨c, k, x, y, rfl⟩
  · exact absurd ht.1 (by omega)
  · obtain ⟨-, a, b, hx, hy, hab, hn⟩ := wb_join.1 ht
    exact ⟨c, k, x, y, a, b, rfl, hx, hy, hab, hn⟩

/-! ## One iteration -/

theorem addWeights_nil (hx : Wb x a) (hy : Wb y b) : addWeights [] (join d w k x y) =
    if a + b < 2 ^ 31 then some (join d ((a : Int) + b) k x y) else none := by
  have hswap : (b : Int) + a = a + b := Int.add_comm ..
  have hsum : addWeights [] (LeafTree.join d w k x y) =
      if -2147483648 ≤ (a : Int) + b ∧ (a : Int) + b ≤ 2147483647 then
        some (LeafTree.join d ((a : Int) + b) k x y) else none := by
    cases d <;> simp only [addWeights, LeafTree.join, tagAt, sub, child, LeafTree.modify, paint,
      Option.bind_eq_bind, Option.bind_some, Option.map_some, List.nil_append, hx.tag,
        hy.tag, hswap]
  rw [hsum]
  by_cases h : a + b < 2 ^ 31
  · rw [if_pos h, if_pos (by omega)]
  · rw [if_neg h, if_neg (by omega)]

@[simp] theorem addWeights_join {p : List Dir} :
    addWeights (d :: p) (join d w k x y) = (addWeights p x).map (join d w k · y) := by
  simp [addWeights, tagAt, Option.map_bind, apply_ite (Option.map _)]

@[simp] theorem addWeights_join_flip {p : List Dir} :
    addWeights (d.flip :: p) (join d w k x y) = (addWeights p y).map (join d w k x ·) := by
  simp [addWeights, tagAt, Option.map_bind, apply_ite (Option.map _)]

/-- The two last assignments of a double rotation. -/
theorem addWeights_both {wx wy : Int} {kx ky : κ} {p' q' e f : LeafTree Int κ ο} (hp : Wb p' a)
    (hq : Wb q' p) (he : Wb e q) (hf : Wb f r) (hint : a + p + (q + r) < 2 ^ 31) :
    (addWeights [.right] (join d w k (join d wx kx p' q') (join d wy ky e f))).bind
      (addWeights [.left]) = some (join d w k (join d ((a : Int) + p) kx p' q')
        (join d ((q : Int) + r) ky e f)) := by
  have h1 := addWeights_nil (d := d) (w := wx) (k := kx) hp hq
  have h2 := addWeights_nil (d := d) (w := wy) (k := ky) he hf
  rw [if_pos (by omega)] at h1 h2
  cases d with
  | left =>
    have hr := addWeights_join_flip (d := .left) (w := w) (k := k) (p := [])
      (x := LeafTree.join .left wx kx p' q') (y := LeafTree.join .left wy ky e f)
    rw [Dir.flip] at hr
    rw [hr, h2, Option.map_some, Option.bind_some, addWeights_join, h1, Option.map_some]
  | right =>
    have hl := addWeights_join_flip (d := .right) (w := w) (k := k) (p := [])
      (x := LeafTree.join .right ((a : Int) + p) kx p' q') (y := LeafTree.join .right wy ky e f)
    rw [Dir.flip] at hl
    rw [addWeights_join, h1, Option.map_some, Option.bind_some, hl, h2, Option.map_some]

/-- A rotation, or two, make good the loss of the light side. -/
theorem repair_ok (hx : Wb x n) (hy : Wb y r) (hs : Shifted n r) (hlight : 1000 * r < 288 * (n + r))
    (hint : n + r < 2 ^ 31) :
    ∃ t, repair d (join d ((n : Int) + r) k x y) = some t ∧ Wb t (n + r) := by
  have hr := hy.pos
  obtain ⟨wx, kx, x1, x2, a, b, rfl, hx1, hx2, hab, rfl⟩ := hx.exists_join (by omega) d
  have ha := hx1.pos
  have htest : ((a : Int) : Rat) > (alpha + epsilon) * (((a + b : Nat) : Int) + (r : Int) : Int) ↔
      293 * (a + b + r) < 1000 * a := by
    rw [outer_iff]
    omega
  by_cases hout : 293 * (a + b + r) < 1000 * a
  · obtain ⟨h1, h2⟩ := outer_ok hr hs hab hlight hout
    have hrep : repair d (join d (((a + b : Nat) : Int) + r) k (join d wx kx x1 x2) y) =
        some (join d ((a : Int) + (b + r : Nat)) kx x1 (join d ((b : Int) + r) k x2 y)) := by
      simp only [repair, tagAt, sub_join, sub_nil, Option.map_some, Option.bind_eq_bind,
        Option.bind_some, tag_join, hx1.tag, if_pos (htest.2 hout), rotation_join_flip,
        addWeights_join_flip, addWeights_nil hx2 hy, if_pos (show b + r < 2 ^ 31 by omega)]
      push_cast
      rw [Int.add_assoc]
    exact ⟨_, hrep, Nat.add_assoc a b r ▸ hx1.join (hx2.join hy h2) h1⟩
  · have hb := inner_two_le hr hlight (by omega)
    obtain ⟨wm, km, u, v, p, q, rfl, hu, hv, hpq, rfl⟩ := hx2.exists_join hb d
    obtain ⟨h1, h2, h3⟩ := inner_ok hr hs hab hpq hlight (by omega)
    have hrep : repair d (join d (((a + (p + q) : Nat) : Int) + r) k
        (join d wx kx x1 (join d wm km u v)) y) =
          some (join d (((a + p : Nat) : Int) + (q + r : Nat)) km (join d ((a : Int) + p) kx x1 u)
            (join d ((q : Int) + r) k v y)) := by
      simp only [repair, tagAt, sub_join, sub_nil, Option.map_some, Option.bind_eq_bind,
        Option.bind_some, tag_join, if_neg (mt htest.1 hout), modify_join, modify_nil,
        rotation_join, rotation_join_flip, hx1.tag,
        addWeights_both hx1 hu hv hy (show a + p + (q + r) < 2 ^ 31 by omega)]
      push_cast
      congr 2
      omega
    have hsum : a + (p + q) + r = a + p + (q + r) := by omega
    exact ⟨_, hrep, hsum ▸ (hx1.join hu h2).join (hv.join hy h3) h1⟩

theorem tagAt_sides : tagAt [.left] (join d w k x y) = some (if d = .left then x.tag else y.tag) ∧
    tagAt [.right] (join d w k x y) = some (if d = .left then y.tag else x.tag) := by
  cases d <;> exact ⟨rfl, rfl⟩

section

variable (hx : Wb x a) (hy : Wb y b) (hint : a + b < 2 ^ 31)
include hx hy hint

/-- A node whose children are in balance gets the right weight and stays. -/
theorem balance_even (hab : Even a b) :
    balance (join d w k x y) = some (join d ((a : Int) + b) k x y) := by
  have hlight : ∀ c : Nat, (c = a ∨ c = b) →
      ¬ ((c : Int) : Rat) < alpha * ((a : Int) + b : Int) := by
    intro c hc
    rw [light_iff]
    unfold Even at hab
    omega
  obtain ⟨hl, hr⟩ := tagAt_sides (d := d) (w := (a : Int) + b) (k := k) (x := x) (y := y)
  simp only [balance, addWeights_nil hx hy, if_pos hint, hx.tag, hy.tag, Option.bind_eq_bind,
    Option.bind_some, hl, hr, tag_join]
  cases d <;> simp only [if_true, reduceCtorEq, if_false, if_neg (hlight a (.inl rfl)),
    if_neg (hlight b (.inr rfl))]

/-- A child that has become too heavy. -/
theorem balance_heavy (hs : Shifted a b) (hlight : 1000 * b < 288 * (a + b)) :
    ∃ t, balance (join d w k x y) = some t ∧ Wb t (a + b) := by
  obtain ⟨t, hrep, ht⟩ := repair_ok (d := d) (k := k) hx hy hs hlight hint
  refine ⟨t, ?_, ht⟩
  have hb : ((b : Int) : Rat) < alpha * ((a : Int) + b : Int) := by
    rw [light_iff]
    omega
  have ha : ¬ ((a : Int) : Rat) < alpha * ((a : Int) + b : Int) := by
    rw [light_iff]
    omega
  obtain ⟨hl, hr⟩ := tagAt_sides (d := d) (w := (a : Int) + b) (k := k) (x := x) (y := y)
  simp only [balance, addWeights_nil hx hy, if_pos hint, hx.tag, hy.tag, Option.bind_eq_bind,
    Option.bind_some, hl, hr, tag_join]
  cases d with
  | left => simpa only [if_true, if_pos hb] using hrep
  | right => simpa only [reduceCtorEq, if_false, if_neg ha, if_pos hb] using hrep

/-- One iteration, after the weight of the child `x` has changed by one. -/
theorem balance_ok {a0 : Nat} (h0 : Even a0 b)
    (ha : a = a0 + 1 ∨ a0 = a + 1) : ∃ t, balance (join d w k x y) = some t ∧ Wb t (a + b) := by
  by_cases hab : Even a b
  · exact ⟨_, balance_even hx hy hint hab, hx.join hy hab⟩
  rcases ha with rfl | rfl
  · refine balance_heavy hx hy hint (.inl ⟨by omega, h0⟩) ?_
    unfold Even at *
    omega
  · obtain ⟨t, hbal, ht⟩ := balance_heavy (d := d.flip) (w := w) (k := k) hy hx (by omega)
      (.inr h0.symm) (by
      unfold Even at *
      omega)
    exact ⟨t, by rwa [join_flip] at hbal, Nat.add_comm b a ▸ ht⟩

end

/-! ## The loop -/

/-- The context of a subtree of weight `n` in a balanced tree of weight `total`. -/
def Fits : Context Int κ ο → (n total : Nat) → Prop
  | [], n, total => n = total
  | f :: fs, n, total => ∃ b, Wb f.other b ∧ Even n b ∧ f.tag = (n : Int) + b ∧
      Fits fs (n + b) total

variable {fs : Context Int κ ο} {n0 total : Nat}

theorem Fits.le (h : Fits fs n total) : n ≤ total := by
  induction fs generalizing n with
  | nil => exact le_of_eq h
  | cons f fs ih =>
    obtain ⟨b, -, -, -, hf⟩ := h
    exact (Nat.le_add_right n b).trans (ih hf)

theorem Wb.of_plug (ht : Wb (plug fs t) n) : ∃ m, Wb t m ∧ Fits fs m n := by
  induction fs generalizing t with
  | nil => exact ⟨n, ht, rfl⟩
  | cons f fs ih =>
    obtain ⟨m, hm, hf⟩ := ih ht
    obtain ⟨hw, a, b, hx, hy, hab, rfl⟩ := wb_join.1 hm
    exact ⟨a, hx, b, hy, hab, by rw [hw]; push_cast; rfl, hf⟩

/-- The loop restores the balance of a tree in which the weight of one subtree
has changed by one. -/
theorem rebalance_ok (hf : Fits fs n0 total) (ht : Wb t n) (hn : n = n0 + 1 ∨ n0 = n + 1)
    (hint : total + n < 2 ^ 31 + n0) :
    ∃ t' m, rebalance fs t = some t' ∧ Wb t' m ∧ m + n0 = total + n := by
  induction fs generalizing t n n0 with
  | nil =>
    obtain rfl := hf
    exact ⟨t, n, rfl, ht, Nat.add_comm ..⟩
  | cons f fs ih =>
    obtain ⟨b, hb, hab, -, hf⟩ := hf
    have hle := hf.le
    obtain ⟨tmp, hbal, htmp⟩ := balance_ok (d := f.dir) (w := f.tag) (k := f.key) ht hb
      (by omega) hab hn
    obtain ⟨t', m, hreb, hm, hsum⟩ := ih hf htmp (by omega) (by omega)
    exact ⟨t', m, by rw [rebalance, Frame.fill, hbal]; exact hreb, hm, by omega⟩

/-- The weight of the root, which the loop computes last, is not an `int`. -/
theorem rebalance_full (hfs : fs ≠ []) (hf : Fits fs n total) (ht : Wb t (n + 1))
    (htotal : total + 1 = 2 ^ 31) : rebalance fs t = none := by
  induction fs generalizing t n with
  | nil => exact absurd rfl hfs
  | cons f fs ih =>
    obtain ⟨b, hb, hab, -, hf⟩ := hf
    cases fs with
    | nil =>
      have hsum : n + b = total := hf
      rw [rebalance, balance, Frame.fill, addWeights_nil ht hb, if_neg (by omega)]
      rfl
    | cons g fs =>
      -- the weight below `g` is less than the one of the whole tree
      have hlt : n + b + 1 ≤ total := by
        obtain ⟨b', hb', -, -, hf⟩ := hf
        exact (Nat.add_le_add_left hb'.pos _).trans hf.le
      obtain ⟨tmp, hbal, htmp⟩ := balance_ok (d := f.dir) (w := f.tag) (k := f.key) ht hb
        (by omega) hab (.inl rfl)
      rw [rebalance, Frame.fill, hbal, Option.bind_some]
      exact ih (by simp) hf (Nat.add_right_comm n 1 b ▸ htmp)

/-- In a balanced tree the loop changes nothing. -/
theorem rebalance_idle (hf : Fits fs n total) (ht : Wb t n) (hint : total < 2 ^ 31) :
    rebalance fs t = some (plug fs t) := by
  induction fs generalizing t n with
  | nil => rfl
  | cons f fs ih =>
    obtain ⟨b, hb, hab, hw, hf⟩ := hf
    have hbal := balance_even (d := f.dir) (w := f.tag) (k := f.key) ht hb (hf.le.trans_lt hint) hab
    rw [rebalance, Frame.fill, hbal, Option.bind_some, ih hf (ht.join hb hab), plug, Frame.fill, hw]

section Keep

variable [LinearOrder κ]

variable {t' : LeafTree Int κ ο}

theorem addWeights_keeps {p : List Dir} (h : addWeights p t = some t') : Keeps t t' := by
  simp only [addWeights, Option.bind_eq_bind, Option.bind_eq_some_iff] at h
  obtain ⟨l, -, r, -, h⟩ := h
  split at h
  case isFalse => cases h
  exact isCongr_keeps.modify (fun t _ ht => Option.some.inj ht ▸ Keeps.paint (l + r) t) h

theorem repair_keeps (h : repair d t = some t') : Keeps t t' := by
  simp only [repair, Option.bind_eq_bind, Option.bind_eq_some_iff] at h
  obtain ⟨a, -, h⟩ := h
  split at h
  · obtain ⟨t1, h1, h2⟩ := Option.bind_eq_some_iff.1 h
    exact isCongr_keeps.trans (Keeps.rotation h1) (addWeights_keeps h2)
  · simp only [Option.bind_eq_some_iff] at h
    obtain ⟨t1, h1, t2, h2, t3, h3, h4⟩ := h
    exact isCongr_keeps.trans (isCongr_keeps.modify (fun _ _ => Keeps.rotation) h1)
      (isCongr_keeps.trans (Keeps.rotation h2)
        (isCongr_keeps.trans (addWeights_keeps h3) (addWeights_keeps h4)))

theorem balance_keeps (h : balance t = some t') : Keeps t t' := by
  simp only [balance, Option.bind_eq_bind, Option.bind_eq_some_iff] at h
  obtain ⟨t1, h1, l, -, r, -, h⟩ := h
  refine isCongr_keeps.trans (addWeights_keeps h1) ?_
  split at h
  · exact repair_keeps h
  split at h
  · exact repair_keeps h
  · exact Option.some.inj h ▸ isCongr_keeps.refl t1

theorem rebalance_keeps (h : rebalance fs t = some t') : Keeps (plug fs t) t' := by
  induction fs generalizing t with
  | nil => exact Option.some.inj h ▸ isCongr_keeps.refl t
  | cons f fs ih =>
    obtain ⟨t1, h1, h2⟩ := Option.bind_eq_some_iff.1 h
    exact isCongr_keeps.trans (isCongr_keeps.plug (balance_keeps h1) fs) (ih h2)

/-! ## The depth of a search -/

theorem pow_step {m w : Nat} (hm : 7 ^ m ≤ 5 ^ m * a) (h : 7 * a ≤ 5 * w) :
    7 ^ (m + 1) ≤ 5 ^ (m + 1) * w :=
  calc 7 ^ (m + 1) = 7 ^ m * 7 := Nat.pow_succ ..
    _ ≤ 5 ^ m * a * 7 := Nat.mul_le_mul_right 7 hm
    _ = 5 ^ m * (7 * a) := by rw [Nat.mul_assoc, Nat.mul_comm a]
    _ ≤ 5 ^ m * (5 * w) := Nat.mul_le_mul_left _ h
    _ = 5 ^ (m + 1) * w := by rw [← Nat.mul_assoc, ← Nat.pow_succ]

/-- Going down one node takes away more than two sevenths of the leaves. -/
theorem Wb.length_descend (ht : Wb t n) (fs : Context Int κ ο) :
    ∃ m, (LeafTree.descend k t fs).2.length = fs.length + m ∧ 7 ^ m ≤ 5 ^ m * n := by
  fun_induction LeafTree.descend k t fs generalizing n with
  | case1 c k' o fs => exact ⟨0, rfl, by simp [ht.1]⟩
  | case2 c k' l r fs hk ih =>
    obtain ⟨-, a, b, hl, -, hab, rfl⟩ := ht
    obtain ⟨m, hlen, hm⟩ := ih hl
    refine ⟨m + 1, by rw [hlen, List.length_cons]; omega, pow_step hm ?_⟩
    unfold Even at hab
    omega
  | case3 c k' l r fs hk ih =>
    obtain ⟨-, a, b, -, hr, hab, rfl⟩ := ht
    obtain ⟨m, hlen, hm⟩ := ih hr
    refine ⟨m + 1, by rw [hlen, List.length_cons]; omega, pow_step hm ?_⟩
    unfold Even at hab
    omega

omit [LinearOrder κ] in
theorem Wb.length_toList (ht : Wb t n) : t.toList.length = n := by
  induction t generalizing n with
  | leaf => rw [ht.1]; rfl
  | node w k l r ihl ihr =>
    obtain ⟨-, a, b, hl, hr, -, rfl⟩ := ht
    rw [toList, List.length_append, ihl hl, ihr hr]

/-- The path stack is long enough for all keys of a machine integer. -/
theorem Wb.stack_ok [Fintype κ] (hκ : Fintype.card κ ≤ 2 ^ 32) (ht : Wb t n) (hs : t.Search) :
    (LeafTree.descend k t []).2.length ≤ pathStack := by
  obtain ⟨m, hlen, hm⟩ := ht.length_descend (k := k) []
  have hn : n ≤ 2 ^ 32 := ht.length_toList ▸ hs.length_le_card.trans hκ
  have hle : 7 ^ m ≤ 5 ^ m * 2 ^ 32 := hm.trans (Nat.mul_le_mul_left _ hn)
  rw [hlen, List.length_nil, Nat.zero_add]
  refine not_lt.1 fun hlt => ?_
  obtain ⟨j, rfl⟩ := Nat.exists_eq_add_of_le (Nat.succ_le_of_lt hlt)
  have hbase : 5 ^ 101 * 2 ^ 32 < 7 ^ 101 := by decide
  have hj : 5 ^ j ≤ 7 ^ j := Nat.pow_le_pow_left (by decide) j
  have hlt : 5 ^ (101 + j) * 2 ^ 32 < 7 ^ (101 + j) :=
    calc 5 ^ (101 + j) * 2 ^ 32
      _ = 5 ^ 101 * 2 ^ 32 * 5 ^ j := by rw [Nat.pow_add, Nat.mul_right_comm]
      _ ≤ 5 ^ 101 * 2 ^ 32 * 7 ^ j := Nat.mul_le_mul_left _ hj
      _ < 7 ^ 101 * 7 ^ j := Nat.mul_lt_mul_of_pos_right hbase (Nat.pow_pos (by decide))
      _ = 7 ^ (101 + j) := (Nat.pow_add ..).symm
  exact absurd hle (not_le_of_gt hlt)

theorem wb_splitLeaf {c : Int} {k' : κ} {o' o : ο} : Wb (method.splitLeaf c k' o' k o) 2 := by
  unfold Method.splitLeaf
  split <;> exact ⟨rfl, 1, 1, ⟨rfl, rfl⟩, ⟨rfl, rfl⟩, by unfold Even; omega, rfl⟩

/-- There is a number for the weight of the root with one leaf more. -/
def Room (t : LeafTree Int κ ο) : Prop := t.toList.length < 2 ^ 31 - 1

/-- A balanced tree, whose weight is an `int`. -/
def Inv (t : LeafTree Int κ ο) : Prop := ∃ n < 2 ^ 31, Wb t n

/-- The loop keeps a tree balanced. -/
theorem method_lawful [Fintype κ] (hκ : Fintype.card κ ≤ 2 ^ 32) :
    (method : Method Int κ ο).Lawful Inv Room where
  stack k := fun ⟨n, _, hn⟩ hs => hn.stack_ok hκ hs
  first k o := ⟨1, by decide, rfl, rfl⟩
  insert k o := fun ⟨n, _, hn⟩ hroom => by
    have hlt : n < 2 ^ 31 - 1 := hn.length_toList ▸ hroom
    obtain ⟨m, hm, hf⟩ := hn.of_plug
    obtain rfl := hm.1
    obtain ⟨t, m, ht, hm, hsum⟩ := rebalance_ok hf wb_splitLeaf (.inl rfl) (by omega)
    exact ⟨t, ht, ⟨m, by omega, hm⟩, rebalance_keeps ht⟩
  delete := fun ⟨n, hlt, hn⟩ => by
    obtain ⟨m, hm, b, hb, -, -, hf⟩ := hn.of_plug
    obtain rfl := hm.1
    obtain ⟨t, m, ht, hm, hsum⟩ := rebalance_ok hf hb (.inr (Nat.add_comm 1 b)) (by omega)
    exact ⟨t, ht, ⟨m, by omega, hm⟩, rebalance_keeps ht⟩
  idle := fun ⟨n, hlt, hn⟩ => by
    obtain ⟨m, hm, b, hb, hab, hw, hf⟩ := hn.of_plug
    refine rebalance_idle hf ?_ hlt
    rw [Frame.fill, hw]
    exact hm.join hb hab

/-- A tree without room gets no new key. -/
theorem insert_full (hs : t.Search) (ht : Inv t) (hroom : ¬ Room t) {k : κ} (hk : findIn k t = none)
    (o : ο) :
    insert (some t) k o = none := by
  obtain ⟨n, hlt, hn⟩ := ht
  obtain ⟨c, k', o', stack, hd⟩ := descend_eq k t []
  have hplaced := (hs.placed k).descend
  have hplug : plug (descend k t []).2 (descend k t []).1 = t := plug_descend k t []
  rw [hd] at hplaced hplug
  have hne : k' ≠ k := fun heq => by
    have hmem : (k, o') ∈ t.toList := hplaced.mem_iff.2 (by simp [toList, heq])
    rw [hs.findIn_eq_some.2 hmem] at hk
    cases hk
  unfold Room at hroom
  rw [hn.length_toList] at hroom
  rw [← hplug] at hn
  obtain ⟨m, hm, hf⟩ := hn.of_plug
  obtain rfl := hm.1
  have hstack : stack ≠ [] := fun heq => by
    subst heq
    have : 1 = n := hf
    omega
  have hnone : method.rebalance stack (method.splitLeaf c k' o' k o) = none :=
    rebalance_full hstack hf wb_splitLeaf (by omega)
  simp only [insert, Method.insert, hd, if_neg hne, hnone, Option.map_none, ite_self]

end Keep

/-! ## Runs -/

/-- The weight of every node is the number of leaves below it. -/
def ExactWeights : LeafTree Int κ ο → Prop
  | leaf w _ _ => w = 1
  | node w k l r => w = (node w k l r).toList.length ∧ ExactWeights l ∧ ExactWeights r

/-- Both children of a node have at least `alpha` times its weight. -/
def EvenWeights : LeafTree Int κ ο → Prop
  | leaf _ _ _ => True
  | node w _ l r => alpha * w ≤ l.tag ∧ alpha * w ≤ r.tag ∧ EvenWeights l ∧ EvenWeights r

structure WeightBalanced [LinearOrder κ] (t : LeafTree Int κ ο) : Prop where
  search : t.Search
  exact : ExactWeights t
  even : EvenWeights t

theorem Wb.exactWeights (ht : Wb t n) : ExactWeights t := by
  induction t generalizing n with
  | leaf => exact ht.2
  | node w k l r ihl ihr =>
    have hlen := ht.length_toList
    obtain ⟨hw, a, b, hl, hr, -, -⟩ := ht
    exact ⟨by rw [hlen, hw], ihl hl, ihr hr⟩

theorem Wb.evenWeights (ht : Wb t n) : EvenWeights t := by
  induction t generalizing n with
  | leaf => trivial
  | node w k l r ihl ihr =>
    obtain ⟨hw, a, b, hl, hr, hab, rfl⟩ := ht
    refine ⟨?_, ?_, ihl hl, ihr hr⟩
    all_goals
      rw [← not_lt, light_iff, hw]
      unfold Even at hab
    · rw [hl.tag]
      omega
    · rw [hr.tag]
      omega

section

variable [LinearOrder κ]

def Good (_ : Root Int κ ο) (_ : Answer ο) (t' : Root Int κ ο) : Prop := ∀ s ∈ t', WeightBalanced s

/-- A new key is inserted into a tree with at least `2 ^ 31 - 1` keys. -/
def Full (t : Root Int κ ο) : Call κ ο → Prop := Method.Crowded Room t

variable [Fintype κ] (hκ : Fintype.card κ ≤ 2 ^ 32)
include hκ

theorem store_step {t : Root Int κ ο} {m : Dict κ ο} {c : Call κ ο}
    (h : Method.Sound Inv t ∧ Holds t.entries m) (hc : ¬ Full t c) :
      ∃ t', store.step t c = some (t', (m.step c).2) ∧ Good t (m.step c).2 t' ∧
      Method.Sound Inv t' ∧ Holds t'.entries (m.step c).1 := by
  obtain ⟨t', hstep, hgood, hsound⟩ := Method.step_ok (method_lawful hκ) c h hc
  refine ⟨t', hstep, fun s hs => ?_, hsound⟩
  obtain ⟨hsearch, n, -, hn⟩ := hgood.1 s hs
  exact ⟨hsearch, hn.exactWeights, hn.evenWeights⟩

theorem follows_iff_of_card (cs : List (Call κ ο)) :
    store.Follows Good none Dict.empty cs ↔ store.Avoids Full none cs := by
  refine Store.follows_iff_of_breaks Method.shows_of (fun t m c h hc => store_step hκ h hc) ?_
    Method.sound_none
  intro t m c h hc t' hstep
  cases c with
  | delete k => exact hc.elim
  | insert k o =>
    obtain ⟨hk, s, hst, hroom⟩ := hc
    obtain rfl := Option.mem_def.1 hst
    obtain ⟨hsearch, hinv⟩ := h.1 s rfl
    rw [Store.step, show store.insert (some s) k o = none from insert_full hsearch hinv hroom
      hk o] at hstep
    cases hstep

end

/-- A run of the tree, starting from the empty one, follows the dictionary and
leaves a weight-balanced tree after every call, exactly if no new key is
inserted into a tree with `2 ^ 31 - 1` keys. -/
theorem weightBalanced_follows_iff (cs : List (Call Key ο)) :
    store.Follows Good none Dict.empty cs ↔ store.Avoids Full none cs :=
  follows_iff_of_card (le_of_eq card_key) cs

/-- Insert all keys, of which there are `2 ^ 32`. -/
theorem not_follows_allKeys : ¬ store.Follows Good none Dict.empty
    ((Finset.univ : Finset Key).toList.map fun k => Call.insert k ()) := by
  intro hf
  have hκ : Fintype.card Key ≤ 2 ^ 32 := le_of_eq card_key
  have havoids := (follows_iff_of_card hκ _).1 hf
  have hstep : ∀ t m (c : Call Key Unit), (Method.Sound Inv t ∧ Holds t.entries m) →
      ¬ Full t c → ¬ Full t c → ∃ t' a, store.step t c = some (t', a) ∧ True ∧
        Method.Sound Inv t' ∧ Holds t'.entries (m.step c).1 := by
    intro t m c h _ hc
    obtain ⟨t', hstep, -, h'⟩ := store_step hκ h hc
    exact ⟨t', _, hstep, trivial, h'⟩
  obtain ⟨t, -, hsound, hholds⟩ := Store.exists_run hstep Method.sound_none havoids havoids
  have hall : ∀ k, k ∈ t.entries.map Prod.fst := fun k => by
    obtain ⟨o, ho⟩ := Option.ne_none_iff_exists'.1
      (Dict.run_insert_ne_none (m := Dict.empty) (o := ())
        (.inl (Finset.mem_toList.2 (Finset.mem_univ k))))
    exact List.mem_map_of_mem (f := Prod.fst) ((hholds k o).2 ho)
  have hlen : Fintype.card Key ≤ t.entries.length :=
    calc Fintype.card Key ≤ (t.entries.map Prod.fst).toFinset.card :=
          Finset.card_le_card fun k _ => List.mem_toFinset.2 (hall k)
      _ ≤ (t.entries.map Prod.fst).length := List.toFinset_card_le _
      _ = t.entries.length := List.length_map _
  rw [card_key] at hlen
  cases t with
  | none => exact absurd hlen (by decide)
  | some s =>
    obtain ⟨-, n, hlt, hn⟩ := hsound s rfl
    have hn := hn.length_toList
    rw [Root.entries, hn] at hlen
    omega

end CLangProject.WblTree

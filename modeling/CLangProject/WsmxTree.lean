import CLangProject.WsumTree

/-!
# The maximum tree of `ch4/wsmx_tree.c`

The tree of `wsum_tree.c` with one more field: `partial_sum` of a node is the
maximum, over the leaves below it, of the sums from the node's child down to
the leaf. Dropping the field maps the code to that of `wsum_tree.c`
(`variant_hom`), so that the values are known; what remains is that the field
is right (`Partial`) and that the query combines it correctly.

The query for `[a, b)` descends to the node that separates `a` from `b`, then
follows the search paths of both. On each path it meets subtrees that lie
entirely between `a` and `b`, for which `summand + partial_sum` is the maximum
(`total_isGreatest`), and it ends in a leaf. At the right end a leaf counts only
if its key is below `b`; since a leaf covers the numbers from its key on
(`Covers`), the leaf that the path ends in does.
-/

namespace CLangProject.WsmxTree

open LeafTree HeightTree List

variable {κ ο : Type}

variable {d : Dir} {k : κ} {w : Int}

/-! ## The code -/

/-- `summand` and `partial_sum` are of type `int`, and unbounded here as in `WsumTree.Tag`. -/
structure Tag where
  height : Int
  summand : Int
  partialSum : Int
  deriving DecidableEq, Repr

/-- `t->summand + t->partial_sum`. -/
def total (t : LeafTree Tag κ ο) : Int := t.tag.summand + t.tag.partialSum

/-- `t->summand += w`. -/
def add (w : Int) (t : LeafTree Tag κ ο) : LeafTree Tag κ ο :=
  t.paint { t.tag with summand := t.tag.summand + w }

/-- Set `partial_sum` to the larger one of the sums of the children. -/
def refresh : LeafTree Tag κ ο → Option (LeafTree Tag κ ο)
  | node c k l r =>
    some (node { c with partialSum := if total l > total r then total l else total r } k l r)
  | leaf _ _ _ => none

/-- `left_rotation` and `right_rotation`. -/
def rotation (d : Dir) (n : LeafTree Tag κ ο) : Option (LeafTree Tag κ ο) := do
  let tmp1 := n.tag.summand
  let n := n.paint { n.tag with summand := 0, partialSum := n.tag.partialSum + tmp1 }
  let child ← n.tagAt [d.flip]
  let tmp2 := child.summand
  let n ← n.modify (fun t => some (t.paint { child with summand := 0 })) [d.flip]
  let n ← n.modify (fun t => some (add tmp1 t)) [d]
  let n ← n.modify (fun t => some (add (tmp1 + tmp2) t)) [d.flip, d]
  let n ← n.modify (fun t => some (add (tmp1 + tmp2) t)) [d.flip, d.flip]
  let n ← LeafTree.rotation d n
  n.modify refresh [d]

def variant : Variant Tag κ ο where
  height := Tag.height
  setHeight h c := { c with height := h }
  first := ⟨0, 0, 0⟩
  split c := ⟨0, 0, c.partialSum⟩
  rotation := rotation

section Calls

variable [LinearOrder κ]

/-- The two loops of `insert_interval` for one end: add `w` to everything right
of the search path of `k` and to the leaf at its end, then correct the nodes of
the path from below. -/
def addFrom (k : κ) (w : Int) : LeafTree Tag κ ο → Option (LeafTree Tag κ ο)
  | leaf c k' o => some (add w (leaf c k' o))
  | node c k' l r =>
    if k < k' then (addFrom k w l).bind fun l => refresh (node c k' l (add w r))
    else (addFrom k w r).bind fun r => refresh (node c k' l r)

/-- The loops keep the path in `path_stack`. -/
def addAlong (k : κ) (w : Int) (t : LeafTree Tag κ ο) : Option (LeafTree Tag κ ο) :=
  if pathStack < (descend k t []).2.length then none else addFrom k w t

def insertInterval (t : Root Tag κ Unit) (a b : κ) (w : Int) : Option (Root Tag κ Unit) := do
  let t ← variant.enter t a
  let t ← variant.enter t b
  let t ← t
  let t ← addAlong a w t
  let t ← addAlong b (-w) t
  return some t

/-- `if ( first || tmp_sum > current_max ) current_max = tmp_sum`; there is no
`current_max` while `first` is set. -/
def bump (currentMax : Option Int) (tmpSum : Int) : Option Int :=
  match currentMax with
  | none => some tmpSum
  | some m => if tmpSum > m then some tmpSum else some m

/-- The path of the left end `a`. -/
def leftPath (a : κ) : LeafTree Tag κ ο → Int → Option Int → Option Int
  | leaf c k o, leftSum, m => bump m (leftSum + total (leaf c k o))
  | node c k l r, leftSum, m =>
    let leftSum := leftSum + c.summand
    if a < k then leftPath a l leftSum (bump m (leftSum + total r))
    else if a = k then bump m (leftSum + total r)
    else leftPath a r leftSum m

/-- The path of the right end `b`. -/
def rightPath (b : κ) : LeafTree Tag κ ο → Int → Option Int → Option Int
  | leaf c k o, rightSum, m => if k < b then bump m (rightSum + total (leaf c k o)) else m
  | node c k l r, rightSum, m =>
    let rightSum := rightSum + c.summand
    if k < b then rightPath b r rightSum (bump m (rightSum + total l))
    else if k = b then bump m (rightSum + total l)
    else rightPath b l rightSum m

/-- The loop down to the node that separates `a` from `b`, and the rest. -/
def splitPath (a b : κ) : LeafTree Tag κ ο → Int → Option Int
  | leaf c k o, sum => some (sum + total (leaf c k o))
  | node c k l r, sum =>
    let sum := sum + c.summand
    if b < k then splitPath a b l sum
    else if k < a then splitPath a b r sum
    else if a < k ∧ k < b then rightPath b r sum (leftPath a l sum none)
    else if a = k then rightPath b r sum none
    else leftPath a l sum none

/-- `max_value_interval`; an empty tree makes the program exit. -/
def maxValueInterval : Root Tag κ ο → κ → κ → Option Int
  | none, _, _ => none
  | some t, a, b => splitPath a b t 0

end Calls

def createTree : Option (Root Tag Key Unit) :=
  (variant.method.insert none WsumTree.negInfty ()).map Prod.fst

def insertAll (t : Root Tag Key Unit) (l : List WsumTree.Interval) : Option (Root Tag Key Unit) :=
  l.foldlM (fun t i => insertInterval t i.a i.b i.w) t

/-! ## Rotations -/

/-- Drop the partial sum. -/
def Tag.drop (c : Tag) : WsumTree.Tag := ⟨c.height, c.summand⟩

variable {t a b : LeafTree Tag κ ο} {c : Tag}

@[simp] theorem mapTag_add : (add w t).mapTag Tag.drop = WsumTree.add w (t.mapTag Tag.drop) := by
  cases t <;> rfl

theorem refresh_join : refresh (join d c k a b) =
      some (join d { c with partialSum := max (total a) (total b) } k a b) := by
  have hmax : ∀ x y : Int, (if x > y then x else y) = max x y := fun x y => by
    split <;> omega
  cases d
  · simp only [join, refresh, hmax]
  · simp only [join, refresh, hmax, max_comm]

theorem rotation_join {c' : Tag} {k' : κ} {e : LeafTree Tag κ ο} :
    rotation d (join d c k a (join d c' k' b e)) =
        some (join d { c with summand := 0, partialSum := c.partialSum + c.summand } k'
        (join d { c' with
            summand := 0
            partialSum := max (total (add c.summand a)) (total (add (c.summand + c'.summand) b)) } k
          (add c.summand a) (add (c.summand + c'.summand) b))
        (add (c.summand + c'.summand) e)) := by
  simp [rotation, tagAt, refresh_join]

/-- A rotation needs a node on the side it takes up. -/
theorem rotation_cases (d : Dir) (t : LeafTree Tag κ ο) :
    (∃ c c' k k' a b e, t = join d c k a (join d c' k' b e)) ∨
      rotation d t = none ∧ WsumTree.rotation d (t.mapTag Tag.drop) = none := by
  rcases leaf_or_join d t with ⟨c, k, o, rfl⟩ | ⟨c, k, a, b, rfl⟩
  · exact .inr ⟨by cases d <;> rfl, by cases d <;> rfl⟩
  rcases leaf_or_join d b with ⟨c', k', o, rfl⟩ | ⟨c', k', b, e, rfl⟩
  · exact .inr ⟨by cases d <;> rfl, by cases d <;> rfl⟩
  · exact .inl ⟨c, c', k, k', a, b, e, rfl⟩

/-- Without the partial sums this is the tree of `wsum_tree.c`. -/
theorem variant_hom : (variant : Variant Tag κ ο).Hom WsumTree.variant Tag.drop where
  height _ := rfl
  setHeight _ _ := rfl
  first := rfl
  split _ := rfl
  rotation d t := by
    rcases rotation_cases d t with ⟨c, c', k, k', a, b, e, rfl⟩ | ⟨h1, h2⟩
    · simp [variant, WsumTree.variant, rotation_join, WsumTree.rotation_join, Tag.drop,
        Int.add_comm c.summand]
    · simp [variant, WsumTree.variant, h1, h2]

/-! ## Partial sums -/

/-- The partial sum of a leaf is 0, that of a node the maximum of the sums of
its children. -/
def Partial : LeafTree Tag κ ο → Prop
  | leaf c _ _ => c.partialSum = 0
  | node c _ l r => c.partialSum = max (total l) (total r) ∧ Partial l ∧ Partial r

theorem partial_join :
    Partial (join d c k a b) ↔ c.partialSum = max (total a) (total b) ∧ Partial a ∧ Partial b := by
  cases d
  · exact Iff.rfl
  · simp only [join, Partial, max_comm, and_comm]

@[simp] theorem partial_add : Partial (add w t) ↔ Partial t := by
  cases t <;> exact Iff.rfl

@[simp] theorem total_add : total (add w t) = total t + w := by
  cases t <;> simp only [total, add, paint, tag_leaf, tag_node] <;> omega

@[simp] theorem total_join : total (join d c k a b) = c.summand + c.partialSum := by simp [total]

/-- The partial sums stay right, and so does the total of the tree. -/
def Totals (t t' : LeafTree Tag κ ο) : Prop := Partial t → Partial t' ∧ total t' = total t

theorem isCongr_totals : IsCongr (Totals (κ := κ) (ο := ο)) where
  refl t h := ⟨h, rfl⟩
  trans h1 h2 h := ⟨(h2 (h1 h).1).1, (h2 (h1 h).1).2.trans (h1 h).2⟩
  join := by
    intro d c k a a' b h ht
    obtain ⟨hc, ha, hb⟩ := partial_join.1 ht
    obtain ⟨ha', htot⟩ := h ha
    exact ⟨partial_join.2 ⟨by rw [hc, htot], ha', hb⟩, by simp⟩

theorem totals_setHeight (h : Int) (t : LeafTree Tag κ ο) :
    Totals t (t.paint ((variant (κ := κ) (ο := ο)).setHeight h t.tag)) := by
  intro ht
  cases t <;> exact ⟨ht, rfl⟩

theorem totals_rotation (d : Dir) (t t' : LeafTree Tag κ ο) (h : rotation d t = some t') :
    Totals t t' := by
  intro ht
  rcases rotation_cases d t with ⟨c, c', k, k', a, b, e, rfl⟩ | ⟨hn, -⟩
  case inr => simp [hn] at h
  rw [rotation_join] at h
  obtain rfl := Option.some.inj h
  obtain ⟨hc, ha, hbe⟩ := partial_join.1 ht
  obtain ⟨hc', hb, he⟩ := partial_join.1 hbe
  rw [total_join] at hc
  simp only [partial_join, partial_add, total_add, total_join]
  exact ⟨⟨by omega, ⟨trivial, ha, hb⟩, he⟩, by omega⟩

theorem isGreatest_add {f : κ → Int} {S : Set κ} {m : Int} (h : IsGreatest (f '' S) m) (s : Int) :
    IsGreatest ((fun x => s + f x) '' S) (s + m) := by
  obtain ⟨⟨x, hx, rfl⟩, hmax⟩ := h
  refine ⟨⟨x, hx, rfl⟩, ?_⟩
  rintro _ ⟨y, hy, rfl⟩
  exact Int.add_le_add_left (hmax ⟨y, hy, rfl⟩) s

section Order

variable [LinearOrder κ]

theorem totals_splitLeaf (c : Tag) (k' k : κ) (o' o : ο) :
    Totals (leaf c k' o') (variant.method.splitLeaf c k' o' k o) := by
  intro (hc : c.partialSum = 0)
  unfold Method.splitLeaf
  split <;> simp [variant, Variant.method, Partial, total, hc]

variable {o : ο} {x : κ} {S : Set κ}

theorem insert_partial {t t' : LeafTree Tag κ ο} {r : Int} (h : Partial t)
    (ht' : variant.method.insert (some t) k o = some (some t', r)) : Partial t' := by
  rcases Method.insert_cases ht' with heq | ⟨c, k', o', stack, s, hd, hk, hreb, heq⟩
  · obtain rfl := Option.some.inj heq
    exact h
  obtain rfl := Option.some.inj heq
  have hplug := plug_descend k t []
  rw [hd] at hplug
  have hplug : plug stack (leaf c k' o') = t := hplug
  have hsplit := isCongr_totals.plug (totals_splitLeaf c k' k o' o) stack
  rw [hplug] at hsplit
  exact (isCongr_totals.trans hsplit
    (rebalance_rel isCongr_totals totals_setHeight totals_rotation hreb) h).1

/-- The loops of `insert_interval` do what those of `wsum_tree.c` do, and leave
correct partial sums. -/
theorem addFrom_ok {t : LeafTree Tag κ ο} (h : Partial t) :
    ∃ t', addFrom k w t = some t' ∧ Partial t' ∧
      t'.mapTag Tag.drop = WsumTree.addFrom k w (t.mapTag Tag.drop) := by
  induction t with
  | leaf c k' o => exact ⟨_, rfl, h, rfl⟩
  | node c k' l r ihl ihr =>
    obtain ⟨-, hl, hr⟩ := h
    by_cases hk : k < k'
    · obtain ⟨l', hl', hpl, hmap⟩ := ihl hl
      have hre := refresh_join (d := .left) (c := c) (k := k') (a := l') (b := add w r)
      refine ⟨_, by rw [addFrom, if_pos hk, hl']; exact hre, partial_join.2 ⟨rfl, hpl, ?_⟩, ?_⟩
      · exact partial_add.2 hr
      · simp [join, mapTag, WsumTree.addFrom, hk, hmap, Tag.drop]
    · obtain ⟨r', hr', hpr, hmap⟩ := ihr hr
      have hre := refresh_join (d := .left) (c := c) (k := k') (a := l) (b := r')
      refine ⟨_, by rw [addFrom, if_neg hk, hr']; exact hre, partial_join.2 ⟨rfl, hl, hpr⟩, ?_⟩
      simp [join, mapTag, WsumTree.addFrom, hk, hmap, Tag.drop]

/-! ## Maxima over ranges -/

/-- The value of the tree at `x`. -/
def value (t : LeafTree Tag κ ο) (x : κ) : Int := WsumTree.value (t.mapTag Tag.drop) x

theorem value_node {c : Tag} {l r : LeafTree Tag κ ο} :
    value (node c k l r) x = c.summand + if x < k then value l x else value r x := rfl

variable {c : Tag} {k a b lo hi : κ} {l r t : LeafTree Tag κ ο} {m m1 m2 : Int}

theorem node_congr {f : κ → Int} (h : IsGreatest (f '' S) m)
    (hf : ∀ x ∈ S, value (node c k l r) x = c.summand + f x) :
    IsGreatest (value (node c k l r) '' S) (c.summand + m) :=
  Set.image_congr hf ▸ isGreatest_add h c.summand

theorem node_left (h : IsGreatest (value l '' Set.Ico lo hi) m) (hk : hi ≤ k) :
    IsGreatest (value (node c k l r) '' Set.Ico lo hi) (c.summand + m) :=
  node_congr h fun x hx => by rw [value_node, if_pos (hx.2.trans_le hk)]

theorem node_right (h : IsGreatest (value r '' Set.Ico lo hi) m) (hk : k ≤ lo) :
    IsGreatest (value (node c k l r) '' Set.Ico lo hi) (c.summand + m) :=
  node_congr h fun x hx => by rw [value_node, if_neg (not_lt_of_ge (hk.trans hx.1))]

theorem node_both (h1 : IsGreatest (value l '' Set.Ico lo k) m1)
    (h2 : IsGreatest (value r '' Set.Ico k hi) m2) (hlo : lo ≤ k) (hhi : k ≤ hi) :
    IsGreatest (value (node c k l r) '' Set.Ico lo hi) (c.summand + max m1 m2) := by
  have hmax : c.summand + max m1 m2 = max (c.summand + m1) (c.summand + m2) := by omega
  rw [← Set.Ico_union_Ico_eq_Ico hlo hhi, Set.image_union, hmax]
  exact (node_left h1 le_rfl).union (node_right h2 le_rfl)

/-- The value of a leaf does not depend on `x`. -/
theorem leaf_isGreatest (hp : Partial (leaf c k o)) (hx : x ∈ S) :
    IsGreatest (value (leaf c k o) '' S) (total (leaf c k o)) := by
  have htot : total (leaf c k o) = c.summand := by
    have hc : c.partialSum = 0 := hp
    simp [total, hc]
  rw [htot]
  refine ⟨⟨x, hx, rfl⟩, ?_⟩
  rintro _ ⟨y, -, rfl⟩
  exact le_rfl

/-- The total of a tree is the maximum over any range that has all its keys. -/
theorem total_isGreatest (hs : t.Search) (hp : Partial t)
    (hkeys : ∀ p ∈ t.toList, lo ≤ p.1 ∧ p.1 < hi) :
    IsGreatest (value t '' Set.Ico lo hi) (total t) := by
  induction t generalizing lo hi with
  | leaf c k o => exact leaf_isGreatest hp (hkeys (k, o) (by simp [toList]))
  | node c k l r ihl ihr =>
    obtain ⟨hl, hr, hsl, hsr⟩ := hs
    obtain ⟨hc, hpl, hpr⟩ := hp
    obtain ⟨p, hpmem⟩ := l.toList_ne_nil
    obtain ⟨q, hqmem⟩ := r.toList_ne_nil
    have hlo := ((hkeys p (by simp [toList, hpmem])).1.trans_lt (hl p hpmem)).le
    have hhi := ((hr q hqmem).trans_lt (hkeys q (by simp [toList, hqmem])).2).le
    rw [total, tag_node, hc]
    refine node_both (ihl hsl hpl fun p hp => ?_) (ihr hsr hpr fun p hp => ?_) hlo hhi
    · exact ⟨(hkeys p (by simp [toList, hp])).1, hl p hp⟩
    · exact ⟨hr p hp, (hkeys p (by simp [toList, hp])).2⟩

/-! ## The query -/

theorem bump_some (m x : Int) : bump (some m) x = some (max m x) := by
  rw [bump]
  split <;> congr 1 <;> omega

theorem bump_bump (m : Option Int) (x y : Int) : bump (bump m x) y = bump m (max x y) := by
  cases m with
  | none => exact bump_some x y
  | some m => simp only [bump_some, max_assoc]

/-- The left path takes the maximum over the numbers from `a` on. -/
theorem leftPath_ok (hs : t.Search) (hp : Partial t) (hkeys : ∀ p ∈ t.toList, p.1 < hi)
    (ha : a < hi) : ∃ v, (∀ sum m, leftPath a t sum m = bump m (sum + v)) ∧
      IsGreatest (value t '' Set.Ico a hi) v := by
  induction t generalizing hi with
  | leaf c k o => exact ⟨_, fun _ _ => rfl, leaf_isGreatest hp (Set.left_mem_Ico.2 ha)⟩
  | node c k l r ihl ihr =>
    obtain ⟨hl, hr, hsl, hsr⟩ := hs
    obtain ⟨hc, hpl, hpr⟩ := hp
    obtain ⟨q, hqmem⟩ := r.toList_ne_nil
    have hhi := ((hr q hqmem).trans_lt (hkeys q (by simp [toList, hqmem]))).le
    have htot := total_isGreatest hsr hpr fun p hp =>
      ⟨hr p hp, hkeys p (by simp [toList, hp])⟩
    rcases lt_trichotomy a k with hak | rfl | hak
    · obtain ⟨v, hv, hmax⟩ := ihl hsl hpl hl hak
      refine ⟨c.summand + max v (total r), fun sum m => ?_, node_both hmax htot hak.le hhi⟩
      rw [leftPath, if_pos hak, hv, bump_bump]
      congr 1
      omega
    · refine ⟨c.summand + total r, fun sum m => ?_, node_right htot le_rfl⟩
      rw [leftPath, if_neg (lt_irrefl _), if_pos rfl, Int.add_assoc]
    · obtain ⟨v, hv, hmax⟩ := ihr hsr hpr (fun p hp => hkeys p (by simp [toList, hp])) ha
      refine ⟨c.summand + v, fun sum m => ?_, node_right hmax hak.le⟩
      rw [leftPath, if_neg (not_lt_of_gt hak), if_neg hak.ne', hv, Int.add_assoc]

/-- Every number from `lo` on is covered by a leaf whose key is not above it. -/
def Covers (lo : κ) (t : LeafTree Tag κ ο) : Prop := ∀ x, lo ≤ x → reach t x ≤ x

theorem Covers.right (h : Covers lo (node c k l r)) (hk : lo ≤ k) : Covers k r := fun x hx => by
  have := h x (hk.trans hx)
  rwa [reach, if_neg (not_lt_of_ge hx)] at this

theorem Covers.left (h : Covers lo (node c k l r)) (hl : ∀ p ∈ l.toList, p.1 < k) :
    Covers lo l := fun x hx => by
  by_cases hk : x < k
  · have := h x hx
    rwa [reach, if_pos hk] at this
  · obtain ⟨o, ho⟩ := mem_reach l x
    exact ((hl _ ho).trans_le (not_lt.1 hk)).le

/-- The right path takes the maximum over the numbers below `b`. -/
theorem rightPath_ok (hs : t.Search) (hp : Partial t) (hkeys : ∀ p ∈ t.toList, lo ≤ p.1)
    (hcov : Covers lo t) (hb : lo < b) :
    ∃ v, (∀ sum m, rightPath b t sum m = bump m (sum + v)) ∧
      IsGreatest (value t '' Set.Ico lo b) v := by
  induction t generalizing lo with
  | leaf c k o =>
    have hk : k < b := (hcov lo le_rfl).trans_lt hb
    exact ⟨_, fun _ _ => by rw [rightPath, if_pos hk], leaf_isGreatest hp (Set.left_mem_Ico.2 hb)⟩
  | node c k l r ihl ihr =>
    obtain ⟨hl, hr, hsl, hsr⟩ := hs
    obtain ⟨hc, hpl, hpr⟩ := hp
    obtain ⟨q, hqmem⟩ := l.toList_ne_nil
    have hlo := ((hkeys q (by simp [toList, hqmem])).trans_lt (hl q hqmem)).le
    have htot := total_isGreatest hsl hpl fun p hp =>
      ⟨hkeys p (by simp [toList, hp]), hl p hp⟩
    rcases lt_trichotomy k b with hkb | rfl | hkb
    · obtain ⟨v, hv, hmax⟩ := ihr hsr hpr hr (hcov.right hlo) hkb
      refine ⟨c.summand + max (total l) v, fun sum m => ?_, node_both htot hmax hlo hkb.le⟩
      rw [rightPath, if_pos hkb, hv, bump_bump]
      congr 1
      omega
    · refine ⟨c.summand + total l, fun sum m => ?_, node_left htot le_rfl⟩
      rw [rightPath, if_neg (lt_irrefl _), if_pos rfl, Int.add_assoc]
    · obtain ⟨v, hv, hmax⟩ := ihl hsl hpl (fun p hp => hkeys p (by simp [toList, hp]))
        (hcov.left hl) hb
      refine ⟨c.summand + v, fun sum m => ?_, node_left hmax hkb.le⟩
      rw [rightPath, if_neg (not_lt_of_gt hkb), if_neg hkb.ne', hv, Int.add_assoc]

theorem splitPath_ok (hs : t.Search) (hp : Partial t) (hcov : Covers a t) (hab : a < b) :
    ∃ v, (∀ sum, splitPath a b t sum = some (sum + v)) ∧ IsGreatest (value t '' Set.Ico a b) v := by
  induction t with
  | leaf c k o => exact ⟨_, fun _ => rfl, leaf_isGreatest hp (Set.left_mem_Ico.2 hab)⟩
  | node c k l r ihl ihr =>
    obtain ⟨hl, hr, hsl, hsr⟩ := hs
    obtain ⟨hc, hpl, hpr⟩ := hp
    by_cases hbk : b < k
    · obtain ⟨v, hv, hmax⟩ := ihl hsl hpl (hcov.left hl)
      exact ⟨c.summand + v, fun sum => by rw [splitPath, if_pos hbk, hv, Int.add_assoc],
        node_left hmax hbk.le⟩
    by_cases hka : k < a
    · have hcov' : Covers a r := fun x hx => by
        have := hcov x hx
        rwa [reach, if_neg (not_lt_of_ge (hka.le.trans hx))] at this
      obtain ⟨v, hv, hmax⟩ := ihr hsr hpr hcov'
      exact ⟨c.summand + v, fun sum => by rw [splitPath, if_neg hbk, if_pos hka, hv, Int.add_assoc],
        node_right hmax hka.le⟩
    have hak : a ≤ k := not_lt.1 hka
    have hkb : k ≤ b := not_lt.1 hbk
    rcases hak.lt_or_eq with hlt | rfl
    · obtain ⟨v1, hv1, hmax1⟩ := leftPath_ok hsl hpl hl hlt
      rcases hkb.lt_or_eq with hlt' | rfl
      · obtain ⟨v2, hv2, hmax2⟩ := rightPath_ok hsr hpr hr (hcov.right hak) hlt'
        refine ⟨c.summand + max v1 v2, fun sum => ?_, node_both hmax1 hmax2 hak hkb⟩
        rw [splitPath, if_neg hbk, if_neg hka, if_pos ⟨hlt, hlt'⟩, hv1, hv2, bump_bump]
        simp only [bump, Option.some.injEq]
        omega
      · refine ⟨c.summand + v1, fun sum => ?_, node_left hmax1 le_rfl⟩
        rw [splitPath, if_neg hbk, if_neg hka, if_neg (by simp), if_neg hlt.ne, hv1, bump,
          Int.add_assoc]
    · obtain ⟨v2, hv2, hmax2⟩ := rightPath_ok hsr hpr hr (hcov.right hak) hab
      refine ⟨c.summand + v2, fun sum => ?_, node_right hmax2 le_rfl⟩
      rw [splitPath, if_neg hbk, if_neg hka, if_neg (by simp), if_pos rfl, hv2, bump, Int.add_assoc]

/-! ## Entering intervals -/

/-- The tree has the values `F` from `lo` on, and correct partial sums. -/
structure Maxima (lo : κ) (F : κ → Int) (t : LeafTree Tag κ ο) : Prop where
  sums : WsumTree.Sums lo F (t.mapTag Tag.drop)
  partials : Partial t

variable {F : κ → Int} [Fintype κ]

theorem enter_ok (hκ : Fintype.card κ ≤ 2 ^ 32) {t : LeafTree Tag κ Unit} (h : Maxima lo F t)
    (k : κ) : ∃ t', variant.enter (some t) k = some (some t') ∧ Maxima lo F t' ∧ reach t' k = k ∧
      ∀ q, reach t q = q → reach t' q = q := by
  obtain ⟨t1, h1, hs1, hk, hkeep, -⟩ := WsumTree.enter_ok hκ h.sums k
  have hmap : (variant.enter (some t) k).map (Option.map (mapTag Tag.drop)) = some (some t1) :=
    (enter_mapTag variant_hom (some t) k).symm.trans h1
  obtain ⟨t', ht', heq⟩ := Option.map_eq_some_iff.1 hmap
  obtain ⟨s, rfl, rfl⟩ := Option.map_eq_some_iff.1 heq
  have hpart : Partial s := by
    unfold Variant.enter at ht'
    split at ht'
    · cases ht'
      exact h.partials
    · obtain ⟨⟨t', r⟩, hins, rfl⟩ := Option.map_eq_some_iff.1 ht'
      exact insert_partial h.partials hins
  simp only [reach_mapTag] at hk hkeep
  exact ⟨s, ht', ⟨hs1, hpart⟩, hk, hkeep⟩

theorem addAlong_ok (hκ : Fintype.card κ ≤ 2 ^ 32) (h : Maxima lo F t) (hk : reach t k = k)
    (w : Int) : ∃ t', addAlong k w t = some t' ∧
      Maxima lo (fun x => F x + if k ≤ x then w else 0) t' ∧ ∀ x, reach t' x = reach t x := by
  obtain ⟨t', ht', hpart, hmap⟩ := addFrom_ok (k := k) (w := w) h.partials
  obtain ⟨n, hn⟩ := h.sums.balanced
  have hlen : (descend k t []).2.length ≤ pathStack := by
    have := hn.stack_ok (k := k) hκ (search_mapTag.2 h.sums.search)
    rw [show ([] : Context Int κ ο) = ([] : Context WsumTree.Tag κ ο).map (Frame.mapTag _) from rfl,
      descend_mapTag, show ([] : Context WsumTree.Tag κ ο) =
        ([] : Context Tag κ ο).map (Frame.mapTag Tag.drop) from rfl, descend_mapTag] at this
    simpa using this
  refine ⟨t', by rw [addAlong, if_neg (not_lt_of_ge hlen), ht'], ⟨?_, hpart⟩, fun x => ?_⟩
  · rw [hmap]
    exact h.sums.addFrom (by rw [reach_mapTag, hk]) w
  · rw [← reach_mapTag (f := Tag.drop), hmap, WsumTree.reach_addFrom, reach_mapTag]

theorem insertInterval_ok (hκ : Fintype.card κ ≤ 2 ^ 32) {t : LeafTree Tag κ Unit}
    (h : Maxima lo F t) (a b : κ) (w : Int) :
    ∃ t', insertInterval (some t) a b w = some (some t') ∧
      Maxima lo (fun x => F x + (if a ≤ x then w else 0) + if b ≤ x then -w else 0) t' := by
  obtain ⟨t1, h1, hs1, ha, -⟩ := enter_ok hκ h a
  obtain ⟨t2, h2, hs2, hb, hkeep⟩ := enter_ok hκ hs1 b
  obtain ⟨t3, h3, hs3, hr⟩ := addAlong_ok hκ hs2 (hkeep a ha) w
  obtain ⟨t4, h4, hs4, -⟩ := addAlong_ok hκ hs3 (by rw [hr, hb]) (-w)
  exact ⟨t4, by simp [insertInterval, h1, h2, h3, h4], hs4⟩

end Order

/-! ## All intervals -/

open WsumTree (Interval negInfty)

theorem insertAll_ok {F : Key → Int} {t : LeafTree Tag Key Unit} (h : Maxima negInfty F t)
    (l : List Interval) : ∃ t', insertAll (some t) l = some (some t') ∧
      Maxima negInfty (fun x => F x + (l.map (Interval.at · x)).sum) t' := by
  induction l generalizing F t with
  | nil => exact ⟨t, rfl, by simpa using h⟩
  | cons i l ih =>
    obtain ⟨t1, h1, hs1⟩ := insertInterval_ok (le_of_eq card_key) h i.a i.b i.w
    obtain ⟨t', h', hs'⟩ := ih hs1
    refine ⟨t', by simpa [insertAll, h1] using h', ?_⟩
    rw [WsumTree.sum_cons_at]
    exact hs'

/-- The weights of the intervals that contain `x`, less those of the intervals
with exchanged ends that do. -/
def weight (l : List Interval) (x : Key) : Int :=
  ((l.filter fun i => i.a ≤ x ∧ x < i.b).map (·.w)).sum -
    ((l.filter fun i => i.b ≤ x ∧ x < i.a).map (·.w)).sum

theorem sum_at_eq_weight (l : List Interval) (x : Key) :
    (l.map (Interval.at · x)).sum = weight l x := by
  unfold weight
  induction l with
  | nil => rfl
  | cons i l ih =>
    rw [map_cons, sum_cons, ih, Interval.at]
    by_cases ha : i.a ≤ x <;> by_cases hb : i.b ≤ x <;>
      simp [ha, hb, ← not_le] <;> omega

theorem maxima_first : Maxima negInfty (fun _ => 0)
    (leaf (variant (κ := Key) (ο := Unit)).first negInfty ()) :=
  ⟨WsumTree.sums_first, rfl⟩

/-- After any calls of `insert_interval`, `max_value_interval` returns the
largest weight at a point from `a` up to, not including, `b`. -/
theorem maxValueInterval_isGreatest (l : List Interval) (a b : Key) (ha : negInfty ≤ a)
    (hab : a < b) : ∃ t0 t m, createTree = some t0 ∧ insertAll t0 l = some t ∧
      maxValueInterval t a b = some m ∧ IsGreatest (weight l '' Set.Ico a b) m := by
  obtain ⟨t, ht, hs⟩ := insertAll_ok maxima_first l
  have hcov : Covers a t := fun x hx => by
    have := hs.sums.floor x (ha.trans hx)
    rwa [reach_mapTag] at this
  obtain ⟨m, hm, hmax⟩ := splitPath_ok (search_mapTag.1 hs.sums.search) hs.partials hcov hab
  refine ⟨_, _, m, rfl, ht, by rw [maxValueInterval, hm, Int.zero_add], ?_⟩
  have himg : value t '' Set.Ico a b = weight l '' Set.Ico a b := Set.image_congr fun x hx => by
      rw [value, hs.sums.values x (ha.trans hx.1), Int.zero_add, sum_at_eq_weight]
  rwa [← himg]

/-- Two overlapping intervals, the second one with a negative weight. -/
theorem maxValueInterval_overlap : ∃ t0 t m, createTree = some t0 ∧
    insertAll t0 [⟨⟨1, by decide⟩, ⟨4, by decide⟩, 2⟩, ⟨⟨3, by decide⟩, ⟨8, by decide⟩, -5⟩] =
      some t ∧ maxValueInterval t ⟨3, by decide⟩ ⟨6, by decide⟩ = some m ∧
        IsGreatest (weight [⟨⟨1, by decide⟩, ⟨4, by decide⟩, 2⟩,
          ⟨⟨3, by decide⟩, ⟨8, by decide⟩, -5⟩] '' Set.Ico ⟨3, by decide⟩ ⟨6, by decide⟩) m :=
  maxValueInterval_isGreatest _ _ _ (by decide) (by decide)

/-- After the same calls of `insert_interval`, the maximum over an interval is the greatest sum that
`evaluate_sum` of `wsum_tree.c` returns for a point of it. -/
theorem maxValueInterval_eq_sums (l : List Interval) : ∃ t0 t s0 s, createTree = some t0 ∧
    insertAll t0 l = some t ∧ WsumTree.createTree = some s0 ∧ WsumTree.insertAll s0 l = some s ∧
      ∀ a b, negInfty ≤ a → a < b → ∃ m, maxValueInterval t a b = some m ∧
        IsGreatest (WsumTree.evaluateSum s '' Set.Ico a b) m := by
  obtain ⟨t, ht, hs⟩ := insertAll_ok maxima_first l
  obtain ⟨s, hs', hsums, -⟩ := WsumTree.insertAll_ok WsumTree.sums_first l
  refine ⟨_, _, _, _, rfl, ht, rfl, hs', ?_⟩
  intro a b ha hab
  have hcov : Covers a t := by
    intro x hx
    have := hs.sums.floor x (ha.trans hx)
    rwa [reach_mapTag] at this
  obtain ⟨m, hm, hmax⟩ := splitPath_ok (search_mapTag.1 hs.sums.search) hs.partials hcov hab
  refine ⟨m, by rw [maxValueInterval, hm, Int.zero_add], ?_⟩
  -- both trees have the same value at every point
  have himg : WsumTree.evaluateSum (some s) '' Set.Ico a b = value t '' Set.Ico a b := by
    refine Set.image_congr fun x hx => ?_
    rw [WsumTree.evaluateSum_eq, hsums.values x (ha.trans hx.1)]
    exact (hs.sums.values x (ha.trans hx.1)).symm
  rwa [himg]

end CLangProject.WsmxTree

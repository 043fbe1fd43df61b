import CLangProject.HeightTree

/-!
# The weighted-sum tree of `ch4/wsum_tree.c`

The tree stores weighted intervals. Beside its height, a node has a summand,
and the value of the tree at `x` is the sum of the summands on the search path
of `x` (`value`). The tree starts with the key `NEGINFTY`; an interval adds its
weight to all leaves from its left end on and takes it off again from its right
end on.

Insertion of a key does not change the function `value`, since the new
leaves have the summand 0 and a rotation first pushes the summands of the two
nodes involved down to their children (`Same`). The loops of `insert_interval`
change it by a step at the given key (`value_addFrom`), provided that a leaf
covers exactly the numbers from its own key up to the next one (`reach t x ≤ x`).

In the code `number_t` is `int`. The summands are taken as integers without bounds here: the
results are about runs in which all of them, and the sums of them, are within the range of `int`.
-/

namespace CLangProject.WsumTree

open LeafTree HeightTree List

variable {κ ο : Type}

/-! ## The code -/

structure Tag where
  height : Int
  summand : Int
  deriving DecidableEq, Repr

/-- `t->summand += w`. -/
def add (w : Int) (t : LeafTree Tag κ ο) : LeafTree Tag κ ο :=
  t.paint { t.tag with summand := t.tag.summand + w }

/-- Push the summand of a node down to its children. -/
def push : LeafTree Tag κ ο → Option (LeafTree Tag κ ο)
  | node c k l r => some (node { c with summand := 0 } k (add c.summand l) (add c.summand r))
  | leaf _ _ _ => none

/-- `left_rotation` and `right_rotation`. -/
def rotation (d : Dir) (n : LeafTree Tag κ ο) : Option (LeafTree Tag κ ο) := do
  let n ← push n
  let n ← n.modify push [d.flip]
  LeafTree.rotation d n

def variant : Variant Tag κ ο where
  height := Tag.height
  setHeight h c := { c with height := h }
  first := ⟨0, 0⟩
  split _ := ⟨0, 0⟩
  rotation := rotation

section Calls

variable [LinearOrder κ]

/-- The loop of `evaluate_sum`. -/
def evaluateLoop (x : κ) : LeafTree Tag κ ο → Int → Int
  | leaf _ _ _, sum => sum
  | node _ k l r, sum =>
    if x < k then evaluateLoop x l (sum + l.tag.summand)
    else evaluateLoop x r (sum + r.tag.summand)

def evaluateSum : Root Tag κ ο → κ → Int
  | none, _ => 0
  | some t, x => evaluateLoop x t t.tag.summand

/-- A loop of `insert_interval`: add `w` to everything right of the search path
of `k`, and to the leaf at its end. -/
def addFrom (k : κ) (w : Int) : LeafTree Tag κ ο → LeafTree Tag κ ο
  | leaf c k' o => add w (leaf c k' o)
  | node c k' l r =>
    if k < k' then node c k' (addFrom k w l) (add w r) else node c k' l (addFrom k w r)

def insertInterval (t : Root Tag κ Unit) (a b : κ) (w : Int) : Option (Root Tag κ Unit) := do
  let t ← variant.enter t a
  let t ← variant.enter t b
  match t with
  | none => none
  | some t => some (some (addFrom b (-w) (addFrom a w t)))

end Calls

/-- `NEGINFTY`. -/
def negInfty : Key := ⟨-1000, negInfty_mem⟩

def createTree : Option (Root Tag Key Unit) := (variant.method.insert none negInfty ()).map Prod.fst

/-- An interval from `a` to `b` with the weight `w`. -/
structure Interval where
  a : Key
  b : Key
  w : Int

def insertAll (t : Root Tag Key Unit) (l : List Interval) : Option (Root Tag Key Unit) :=
  l.foldlM (fun t i => insertInterval t i.a i.b i.w) t

/-! ## Rotations -/

theorem rotation_join {d : Dir} {c c' : Tag} {k k' : κ} {a b e : LeafTree Tag κ ο} :
    rotation d (join d c k a (join d c' k' b e)) = some (join d { c with summand := 0 } k'
      (join d { c' with summand := 0 } k (add c.summand a) (add (c'.summand + c.summand) b))
        (add (c'.summand + c.summand) e)) := by
  cases d <;> rfl

/-- A rotation needs a node on the side it takes up. -/
theorem rotation_cases (d : Dir) (t : LeafTree Tag κ ο) :
    (∃ c c' k k' a b e, t = join d c k a (join d c' k' b e)) ∨
      rotation d t = none ∧ LeafTree.rotation d (t.mapTag Tag.height) = none := by
  cases d with
  | left =>
    rcases t with _ | ⟨c, k, a, _ | ⟨c', k', b, e⟩⟩
    case node.node => exact .inl ⟨c, c', k, k', a, b, e, rfl⟩
    all_goals exact .inr ⟨rfl, rfl⟩
  | right =>
    rcases t with _ | ⟨c, k, _ | ⟨c', k', e, b⟩, a⟩
    case node.node => exact .inl ⟨c, c', k, k', a, b, e, rfl⟩
    all_goals exact .inr ⟨rfl, rfl⟩

@[simp] theorem mapTag_add {w : Int} {t : LeafTree Tag κ ο} :
    (add w t).mapTag Tag.height = t.mapTag Tag.height := by
  cases t <;> rfl

theorem variant_hom : (variant : Variant Tag κ ο).Hom plain Tag.height where
  height _ := rfl
  setHeight _ _ := rfl
  first := rfl
  split _ := rfl
  rotation d t := by
    rcases rotation_cases d t with ⟨c, c', k, k', a, b, e, rfl⟩ | ⟨h1, h2⟩
    · simp [variant, rotation_join]
    · simp [variant, h1, h2]

/-! ## Values -/

section Value

variable [LinearOrder κ]

variable {c : Tag} {k k' x : κ} {o : ο} {w : Int} {t : LeafTree Tag κ ο}

/-- The sum of the summands on the search path of `x`. -/
def value : LeafTree Tag κ ο → κ → Int
  | leaf c _ _, _ => c.summand
  | node c k l r, x => c.summand + if x < k then value l x else value r x

theorem value_join {d : Dir} {a b : LeafTree Tag κ ο} :
    value (join d c k a b) x = c.summand + if toward x k = d then value a x else value b x := by
  cases d <;> by_cases h : x < k <;> simp [join, value, toward, h]

@[simp] theorem value_add : value (add w t) x = value t x + w := by
  cases t with
  | leaf => rfl
  | node c k l r =>
    simp only [add, paint, value, tag_node]
    omega

@[simp] theorem reach_add : reach (add w t) x = reach t x := by
  cases t <;> rfl

theorem evaluateLoop_eq (sum : Int) : evaluateLoop x t (sum + t.tag.summand) = sum + value t x := by
  induction t generalizing sum with
  | leaf => rfl
  | node c k l r ihl ihr =>
    simp only [evaluateLoop, tag_node, value]
    split
    · rw [ihl, Int.add_assoc]
    · rw [ihr, Int.add_assoc]

theorem evaluateSum_eq : evaluateSum (some t) x = value t x := by
  have h := evaluateLoop_eq (x := x) (t := t) 0
  rwa [Int.zero_add, Int.zero_add] at h

/-- `t'` has the entries of `t` and, if `t` is in order, the same values and
the same leaf for every number. -/
def Same (t t' : LeafTree Tag κ ο) : Prop :=
  Keeps t t' ∧ (t.Search → ∀ x, value t' x = value t x ∧ reach t' x = reach t x)

theorem isCongr_same : IsCongr (Same (κ := κ) (ο := ο)) where
  refl t := ⟨isCongr_keeps.refl t, fun _ _ => ⟨rfl, rfl⟩⟩
  trans h1 h2 := ⟨isCongr_keeps.trans h1.1 h2.1, fun hs x =>
    ⟨((h2.2 (h1.1.2 hs) x).1).trans (h1.2 hs x).1, ((h2.2 (h1.1.2 hs) x).2).trans (h1.2 hs x).2⟩⟩
  join := by
    rintro d c k a a' b ⟨hk, h⟩
    refine ⟨isCongr_keeps.join hk, fun hs x => ?_⟩
    obtain ⟨hv, hr⟩ := h (search_join.1 hs).2.2.1 x
    simp only [value_join, reach_join, hv, hr, and_self]

theorem same_setHeight (h : Int) (t : LeafTree Tag κ ο) :
    Same t (t.paint (variant (κ := κ) (ο := ο).setHeight h t.tag)) :=
  ⟨Keeps.paint _ t, fun _ x => by cases t <;> exact ⟨rfl, rfl⟩⟩

/-- Pushing the summands down first, a rotation changes no value. -/
theorem same_rotation (d : Dir) (t t' : LeafTree Tag κ ο) (h : rotation d t = some t') :
    Same t t' := by
  have hkeep : Keeps t t' := variant_hom.keeps_rotation h
  refine ⟨hkeep, fun hs x => ?_⟩
  have hs' := hkeep.2 hs
  rcases rotation_cases d t with ⟨c, c', k, k', a, b, e, rfl⟩ | ⟨hn, -⟩
  case inr => simp [hn] at h
  rw [rotation_join] at h
  obtain rfl := Option.some.inj h
  have htop : toward x k = d → toward x k' = d := toward_top hs'
  simp only [value_join, reach_join, value_add, reach_add]
  by_cases h1 : toward x k = d
  · simp only [h1, htop h1, if_true]
    exact ⟨by omega, trivial⟩
  · by_cases h2 : toward x k' = d
    · simp only [h1, h2, if_true, if_false]
      exact ⟨by omega, trivial⟩
    · simp only [h1, h2, if_false]
      exact ⟨by omega, trivial⟩

/-! ## Adding a step -/

/-- A step of height `w` at the stored key `k`. -/
theorem value_addFrom (hk : reach t k = k)
    (hx : reach t x ≤ x) : value (addFrom k w t) x = value t x + if k ≤ x then w else 0 := by
  induction t with
  | leaf c k' o =>
    obtain rfl : k' = k := hk
    exact congrArg (c.summand + ·) (if_pos (show k' ≤ x from hx)).symm
  | node c k' l r ihl ihr =>
    simp only [reach] at hk hx
    by_cases h1 : k < k' <;> by_cases h2 : x < k' <;>
      simp only [addFrom, value, h1, h2, if_true, if_false] at hk hx ⊢
    · rw [ihl hk hx, Int.add_assoc]
    · rw [value_add, if_pos (h1.le.trans (not_lt.1 h2)), Int.add_assoc]
    · rw [if_neg (not_le_of_gt (h2.trans_le (not_lt.1 h1))), Int.add_zero]
    · rw [ihr hk hx, Int.add_assoc]

theorem reach_addFrom : reach (addFrom k w t) x = reach t x := by
  induction t with
  | leaf => rfl
  | node c k' l r ihl ihr => by_cases h : k < k' <;> simp [addFrom, reach, h, ihl, ihr]

theorem mapTag_addFrom : (addFrom k w t).mapTag Tag.height = t.mapTag Tag.height := by
  induction t with
  | leaf => rfl
  | node c k' l r ihl ihr => by_cases h : k < k' <;> simp [addFrom, mapTag, h, ihl, ihr]

/-! ## Entering a key -/

variable {o' : ο} {t' : LeafTree Tag κ ο}

theorem value_splitLeaf :
    value (variant.method.splitLeaf c k' o' k o) x = value (leaf c k' o') x := by
  unfold Method.splitLeaf
  split <;> simp [variant, Variant.method, value]

theorem value_plug {fs : Context Tag κ ο} (h : ∀ x, value t' x = value t x) (x : κ) :
    value (plug fs t') x = value (plug fs t) x := by
  induction fs generalizing t t' with
  | nil => exact h x
  | cons f fs ih => exact ih fun x => by simp only [Frame.fill, value_join, h x]

theorem reach_splitLeaf (hx : k' ≤ x) : reach (variant.method.splitLeaf c k' o' k o) x ≤ x := by
  unfold Method.splitLeaf
  by_cases hk : k' < k
  · by_cases h : x < k
    · simpa [hk, h, reach] using hx
    · simpa [hk, h, reach] using not_lt.1 h
  · simpa [hk, not_lt.2 hx, reach] using hx

/-- The tree has the values `F` from `lo` on. -/
structure Sums (lo : κ) (F : κ → Int) (t : LeafTree Tag κ ο) : Prop where
  search : t.Search
  balanced : ∃ n, Avl (t.mapTag Tag.height) n
  floor : ∀ x, lo ≤ x → reach t x ≤ x
  values : ∀ x, lo ≤ x → value t x = F x

variable {lo : κ} {F : κ → Int}

/-- An insertion changes no value, and a leaf goes on to cover numbers from
its key on. -/
theorem insert_values {r : Int} (h : Sums lo F t)
    (ht' : variant.method.insert (some t) k o = some (some t', r)) (x : κ) (hx : lo ≤ x) :
    value t' x = F x ∧ reach t' x ≤ x := by
  rcases Method.insert_cases ht' with heq | ⟨c, k', o', stack, s, hd, hk, hreb, heq⟩
  · obtain rfl := Option.some.inj heq
    exact ⟨h.values x hx, h.floor x hx⟩
  obtain rfl := Option.some.inj heq
  have hplug := plug_descend k t []
  have hplaced := (h.search.placed k).descend
  rw [hd] at hplug hplaced
  have hplug : plug stack (leaf c k' o') = t := hplug
  have hsearch : (plug stack (variant.method.splitLeaf c k' o' k o)).Search :=
    hplaced.replace (Method.splitLeaf_search hk) fun p hp =>
      ((Method.mem_splitLeaf p).1 hp).imp_right fun h => by rw [h]
  obtain ⟨hv, hr⟩ := (rebalance_rel isCongr_same same_setHeight same_rotation hreb).2 hsearch x
  refine ⟨?_, ?_⟩
  · rw [hv, value_plug (fun x => value_splitLeaf) x, hplug, h.values x hx]
  · rw [hr]
    have hfloor := h.floor x hx
    rw [← hplug] at hfloor
    rcases reach_plug stack x with hp | hp
    · rw [hp] at hfloor ⊢
      exact reach_splitLeaf hfloor
    · rwa [hp _ (leaf c k' o')]

theorem enter_ok [Fintype κ] (hκ : Fintype.card κ ≤ 2 ^ 32) {t : LeafTree Tag κ Unit}
    (h : Sums lo F t) (k : κ) :
    ∃ t', variant.enter (some t) k = some (some t') ∧ Sums lo F t' ∧ reach t' k = k ∧
      (∀ q, reach t q = q → reach t' q = q) ∧ ∀ p ∈ t'.toList, p ∈ t.toList ∨ p.1 = k := by
  by_cases hk : reach t k = k
  · exact ⟨t, by simp [Variant.enter, Root.find, findIn_isSome, hk], h, hk, fun _ => id,
      fun _ => .inl⟩
  · obtain ⟨n, hn⟩ := h.balanced
    obtain ⟨t', r, m, hins, hs', hm, hspec⟩ := insert_ok hκ variant_hom h.search hn k ()
    have hval := insert_values h hins
    obtain ⟨-, hmem⟩ := hspec.absent fun x hx => hk (h.search.reach_eq.2 ⟨x, hx⟩)
    refine ⟨t', by simp [Variant.enter, Root.find, findIn_isSome, hk, hins],
      ⟨hs', ⟨m, hm⟩, fun x hx => (hval x hx).2, fun x hx => (hval x hx).1⟩, ?_, fun q hq => ?_,
      fun p hp => ((hmem p).1 hp).imp_right (congrArg Prod.fst)⟩
    · exact hs'.reach_eq.2 ⟨(), (hmem _).2 (.inr rfl)⟩
    · obtain ⟨o, ho⟩ := h.search.reach_eq.1 hq
      exact hs'.reach_eq.2 ⟨o, (hmem _).2 (.inl ho)⟩

theorem toList_addFrom : (addFrom k w t).toList = t.toList := by
  rw [← toList_mapTag (f := Tag.height), mapTag_addFrom, toList_mapTag]

theorem Sums.addFrom (h : Sums lo F t) (hk : reach t k = k)
    (w : Int) : Sums lo (fun x => F x + if k ≤ x then w else 0) (addFrom k w t) where
  search := by
    rw [← search_mapTag (f := Tag.height), mapTag_addFrom, search_mapTag]
    exact h.search
  balanced := by
    rw [mapTag_addFrom]
    exact h.balanced
  floor x hx := by
    rw [reach_addFrom]
    exact h.floor x hx
  values x hx := by rw [value_addFrom hk (h.floor x hx), h.values x hx]

theorem insertInterval_ok [Fintype κ] (hκ : Fintype.card κ ≤ 2 ^ 32) {t : LeafTree Tag κ Unit}
    (h : Sums lo F t) (a b : κ) (w : Int) :
    ∃ t', insertInterval (some t) a b w = some (some t') ∧
      Sums lo (fun x => F x + (if a ≤ x then w else 0) + if b ≤ x then -w else 0) t' ∧
        ∀ p ∈ t'.toList, p ∈ t.toList ∨ p.1 = a ∨ p.1 = b := by
  obtain ⟨t1, h1, hs1, ha, -, hm1⟩ := enter_ok hκ h a
  obtain ⟨t2, h2, hs2, hb, hkeep, hm2⟩ := enter_ok hκ hs1 b
  refine ⟨addFrom b (-w) (addFrom a w t2), by simp [insertInterval, h1, h2], ?_, fun p hp => ?_⟩
  · exact (hs2.addFrom (hkeep a ha) w).addFrom (by rw [reach_addFrom, hb]) (-w)
  · rw [toList_addFrom, toList_addFrom] at hp
    rcases hm2 p hp with hp | hp
    · exact (hm1 p hp).imp_right .inl
    · exact .inr (.inr hp)

end Value

/-! ## All intervals -/

/-- What an interval contributes to the value at `x`. -/
def Interval.at (i : Interval) (x : Key) : Int :=
  (if i.a ≤ x then i.w else 0) - if i.b ≤ x then i.w else 0

theorem sum_cons_at (F : Key → Int) (i : Interval) (l : List Interval) :
    (fun x => F x + ((i :: l).map (Interval.at · x)).sum) = fun x =>
      F x + (if i.a ≤ x then i.w else 0) + (if i.b ≤ x then -i.w else 0) +
        (l.map (Interval.at · x)).sum := by
  funext x
  simp only [map_cons, sum_cons, Interval.at]
  split <;> split <;> omega

theorem insertAll_ok {F : Key → Int} {t : LeafTree Tag Key Unit} (h : Sums negInfty F t)
    (l : List Interval) : ∃ t', insertAll (some t) l = some (some t') ∧
      Sums negInfty (fun x => F x + (l.map (Interval.at · x)).sum) t' ∧
        ∀ p ∈ t'.toList, p ∈ t.toList ∨ ∃ i ∈ l, p.1 = i.a ∨ p.1 = i.b := by
  induction l generalizing F t with
  | nil => exact ⟨t, rfl, by simpa using h, fun _ => .inl⟩
  | cons i l ih =>
    obtain ⟨t1, h1, hs1, hm1⟩ := insertInterval_ok (le_of_eq card_key) h i.a i.b i.w
    obtain ⟨t', h', hs', hm'⟩ := ih hs1
    refine ⟨t', by simpa [insertAll, h1] using h', ?_, fun p hp => ?_⟩
    · rw [sum_cons_at]
      exact hs'
    · rcases hm' p hp with hp | ⟨j, hj, hp⟩
      · exact (hm1 p hp).imp_right fun hi => ⟨i, mem_cons_self, hi⟩
      · exact .inr ⟨j, mem_cons_of_mem _ hj, hp⟩

theorem sums_first : Sums negInfty (fun _ => 0)
    (leaf (variant (κ := Key) (ο := Unit)).first negInfty ()) :=
  ⟨trivial, ⟨0, rfl, rfl⟩, fun _ hx => hx, fun _ _ => rfl⟩

theorem sum_at (l : List Interval) (x : Key) : (l.map (Interval.at · x)).sum =
    ((l.filter (·.a ≤ x)).map (·.w)).sum - ((l.filter (·.b ≤ x)).map (·.w)).sum := by
  induction l with
  | nil => rfl
  | cons i l ih =>
    rw [map_cons, sum_cons, ih, Interval.at]
    by_cases ha : i.a ≤ x <;> by_cases hb : i.b ≤ x <;>
      simp only [filter_cons, ha, hb, decide_true, decide_false, if_true, if_false,
        Bool.false_eq_true, map_cons, sum_cons] <;> omega

/-- After any calls of `insert_interval`, in any order, `evaluate_sum` returns
the sum of the weights of the intervals whose left end is at or below `x`, less
those whose right end is. -/
theorem evaluateSum_intervals (l l' : List Interval) (hl : l'.Perm l) (x : Key)
    (hx : negInfty ≤ x) : ∃ t0 t, createTree = some t0 ∧ insertAll t0 l' = some t ∧
      evaluateSum t x =
        ((l.filter (·.a ≤ x)).map (·.w)).sum - ((l.filter (·.b ≤ x)).map (·.w)).sum := by
  obtain ⟨t, ht, hs, -⟩ := insertAll_ok sums_first l'
  refine ⟨_, _, rfl, ht, ?_⟩
  rw [evaluateSum_eq, hs.values x hx, Int.zero_add, (hl.map _).sum_eq, sum_at]

/-- Two overlapping intervals, the second one given first, at a point in both. -/
theorem evaluateSum_overlap : ∃ t0 t, createTree = some t0 ∧
      insertAll t0 [⟨⟨3, by decide⟩, ⟨8, by decide⟩, 5⟩, ⟨⟨1, by decide⟩, ⟨4, by decide⟩, 2⟩] =
        some t ∧ evaluateSum t ⟨3, by decide⟩ = 7 :=
  evaluateSum_intervals [⟨⟨1, by decide⟩, ⟨4, by decide⟩, 2⟩, ⟨⟨3, by decide⟩, ⟨8, by decide⟩, 5⟩]
    [⟨⟨3, by decide⟩, ⟨8, by decide⟩, 5⟩, ⟨⟨1, by decide⟩, ⟨4, by decide⟩, 2⟩] (Perm.swap ..)
    ⟨3, by decide⟩ (by decide)

end CLangProject.WsumTree

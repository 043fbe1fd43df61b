import Mathlib

/-!
# Leaf trees

A leaf tree keeps its entries in the leaves; an interior node holds only a
key that directs the search: smaller keys are on its left, the others on its
right. Every node has a tag, which is what a balanced tree records about the
node: a colour, a height, a weight.

Algorithms on such trees come in mirror images. A node is therefore written
`join d c k a b`: tag `c`, key `k`, the child `a` on side `d` and the child
`b` on the other side. One statement about `join d` covers both images.

`Edit` is the language of repairs: rotations and changes of tags, each at a
path below a given node. Whatever a list of edits does to the balance of a
tree, it never touches its entries or its search order (`edits_keeps`).
-/

namespace CLangProject

inductive Dir where
  | left
  | right
  deriving DecidableEq, Repr

def Dir.flip : Dir → Dir
  | .left => .right
  | .right => .left

@[simp] theorem Dir.flip_flip (d : Dir) : d.flip.flip = d := by cases d <;> rfl

theorem Dir.eq_or_eq_flip (d e : Dir) : e = d ∨ e = d.flip := by
  cases d <;> cases e <;> simp [Dir.flip]

@[simp] theorem Dir.flip_ne (d : Dir) : d.flip ≠ d := by cases d <;> simp [Dir.flip]

inductive LeafTree (τ κ ο : Type*) where
  | leaf (c : τ) (k : κ) (o : ο)
  | node (c : τ) (k : κ) (l r : LeafTree τ κ ο)
  deriving DecidableEq, Repr

namespace LeafTree

variable {τ κ ο : Type*}

variable {d : Dir} {c c' : τ} {k k' : κ} {o : ο} {t t' a b : LeafTree τ κ ο} {p : List Dir}

def tag : LeafTree τ κ ο → τ
  | leaf c _ _ => c
  | node c _ _ _ => c

def key : LeafTree τ κ ο → κ
  | leaf _ k _ => k
  | node _ k _ _ => k

/-- Give the root the tag `c`. -/
def paint (c : τ) : LeafTree τ κ ο → LeafTree τ κ ο
  | leaf _ k o => leaf c k o
  | node _ k l r => node c k l r

/-- The number of nodes on the longest path. -/
def height : LeafTree τ κ ο → Nat
  | leaf _ _ _ => 1
  | node _ _ l r => max l.height r.height + 1

/-- The entries, from left to right. -/
def toList : LeafTree τ κ ο → List (κ × ο)
  | leaf _ k o => [(k, o)]
  | node _ _ l r => l.toList ++ r.toList

/-- The child on side `d`; a leaf has none. -/
def child : Dir → LeafTree τ κ ο → Option (LeafTree τ κ ο)
  | .left, node _ _ l _ => some l
  | .right, node _ _ _ r => some r
  | _, leaf _ _ _ => none

/-- The subtree at the end of a path. -/
def sub : List Dir → LeafTree τ κ ο → Option (LeafTree τ κ ο)
  | [], t => some t
  | d :: p, t => (t.child d).bind (sub p)

def tagAt (p : List Dir) (t : LeafTree τ κ ο) : Option τ := (t.sub p).map tag

/-- The node with the child `a` on side `d` and `b` on the other side. -/
def join (d : Dir) (c : τ) (k : κ) (a b : LeafTree τ κ ο) : LeafTree τ κ ο :=
  match d with
  | .left => node c k a b
  | .right => node c k b a

/-- Change the subtree at the end of a path. -/
def modify (f : LeafTree τ κ ο → Option (LeafTree τ κ ο)) :
    List Dir → LeafTree τ κ ο → Option (LeafTree τ κ ο)
  | [], t => f t
  | .left :: p, node c k l r => (modify f p l).map fun l' => node c k l' r
  | .right :: p, node c k l r => (modify f p r).map fun r' => node c k l r'
  | _ :: _, leaf _ _ _ => none

/-! ## Shapes -/

@[simp] theorem tag_leaf : (leaf c k o).tag = c := rfl

variable {l r e : LeafTree τ κ ο} {f : LeafTree τ κ ο → Option (LeafTree τ κ ο)}

@[simp] theorem tag_node : (node c k l r).tag = c := rfl

@[simp] theorem tag_join : (join d c k a b).tag = c := by cases d <;> rfl

@[simp] theorem key_join : (join d c k a b).key = k := by cases d <;> rfl

@[simp] theorem paint_join : (join d c k a b).paint c' = join d c' k a b := by cases d <;> rfl

@[simp] theorem tag_paint : (t.paint c).tag = c := by
  cases t <;> rfl

@[simp] theorem paint_tag : t.paint t.tag = t := by cases t <;> rfl

@[simp] theorem toList_paint : (t.paint c).toList = t.toList := by
  cases t <;> rfl

@[simp] theorem height_paint : (t.paint c).height = t.height := by
  cases t <;> rfl

@[simp] theorem height_join : (join d c k a b).height = max a.height b.height + 1 := by
  cases d
  · rfl
  · exact congrArg (· + 1) (Nat.max_comm _ _)

@[simp] theorem child_join : (join d c k a b).child d = some a := by cases d <;> rfl

@[simp] theorem child_join_flip : (join d c k a b).child d.flip = some b := by cases d <;> rfl

@[simp] theorem sub_nil : t.sub [] = some t := rfl

@[simp] theorem sub_leaf : (leaf c k o).sub (d :: p) = none := by cases d <;> rfl

@[simp] theorem sub_join : (join d c k a b).sub (d :: p) = a.sub p := by cases d <;> rfl

@[simp] theorem sub_join_flip : (join d c k a b).sub (d.flip :: p) = b.sub p := by cases d <;> rfl

@[simp] theorem modify_nil : t.modify f [] = f t := by cases t <;> rfl

@[simp] theorem modify_join :
    (join d c k a b).modify f (d :: p) = (a.modify f p).map (join d c k · b) := by
  cases d <;> rfl

@[simp] theorem modify_join_flip :
    (join d c k a b).modify f (d.flip :: p) = (b.modify f p).map (join d c k a ·) := by
  cases d <;> rfl

theorem join_flip : join d.flip c k a b = join d c k b a := by cases d <;> rfl

/-- A node, seen from either side. -/
theorem node_eq_join (d : Dir) (c : τ) (k : κ) (l r : LeafTree τ κ ο) :
    ∃ a b, node c k l r = join d c k a b := by
  cases d
  · exact ⟨l, r, rfl⟩
  · exact ⟨r, l, rfl⟩

theorem join_eq_node (d : Dir) (c : τ) (k : κ) (a b : LeafTree τ κ ο) :
    ∃ l r, join d c k a b = node c k l r := by
  cases d
  · exact ⟨a, b, rfl⟩
  · exact ⟨b, a, rfl⟩

/-- The children of a node are the same from either side. -/
theorem or_child {p : LeafTree τ κ ο → Prop} (h : node c k l r = join d c' k' a b) :
    p l ∨ p r ↔ p a ∨ p b := by
  cases d <;> cases h
  · exact Iff.rfl
  · exact or_comm

theorem leaf_or_join (d : Dir) (t : LeafTree τ κ ο) :
    (∃ c k o, t = leaf c k o) ∨ ∃ c k a b, t = join d c k a b := by
  cases t with
  | leaf c k o => exact .inl ⟨c, k, o, rfl⟩
  | node c k l r =>
    obtain ⟨a, b, h⟩ := node_eq_join d c k l r
    exact .inr ⟨c, k, a, b, h⟩

theorem mem_toList_join {p : κ × ο} :
    p ∈ (join d c k a b).toList ↔ p ∈ a.toList ∨ p ∈ b.toList := by
  cases d <;> simp [join, toList, or_comm]

theorem toList_ne_nil (t : LeafTree τ κ ο) : ∃ p, p ∈ t.toList := by
  induction t with
  | leaf c k o => exact ⟨(k, o), by simp [toList]⟩
  | node c k l r ihl _ =>
    obtain ⟨p, hp⟩ := ihl
    exact ⟨p, by simp [toList, hp]⟩

/-! ## Changing the type of the tags -/

section MapTag

variable {τ' : Type*}

def mapTag (f : τ → τ') : LeafTree τ κ ο → LeafTree τ' κ ο
  | leaf c k o => leaf (f c) k o
  | node c k l r => node (f c) k (l.mapTag f) (r.mapTag f)

variable {f : τ → τ'} {t : LeafTree τ κ ο}

@[simp] theorem mapTag_leaf : (leaf c k o).mapTag f = leaf (f c) k o := rfl

@[simp] theorem mapTag_join :
    (join d c k a b).mapTag f = join d (f c) k (a.mapTag f) (b.mapTag f) := by cases d <;> rfl

@[simp] theorem tag_mapTag : (t.mapTag f).tag = f t.tag := by cases t <;> rfl

@[simp] theorem toList_mapTag : (t.mapTag f).toList = t.toList := by
  induction t with
  | leaf => rfl
  | node c k l r ihl ihr => simp [mapTag, toList, ihl, ihr]

@[simp] theorem sub_mapTag : (t.mapTag f).sub p = (t.sub p).map (mapTag f) := by
  induction p generalizing t with
  | nil => rfl
  | cons d p ih =>
    rcases leaf_or_join d t with ⟨c, k, o, rfl⟩ | ⟨c, k, a, b, rfl⟩
    · simp
    · simp [ih]

@[simp] theorem tagAt_mapTag : (t.mapTag f).tagAt p = (t.tagAt p).map f := by
  simp [tagAt, Function.comp_def]

/-- A change that commutes with the change of the tags does so at every place. -/
theorem modify_mapTag {g : LeafTree τ κ ο → Option (LeafTree τ κ ο)}
    {g' : LeafTree τ' κ ο → Option (LeafTree τ' κ ο)}
    (hg : ∀ t, g' (t.mapTag f) = (g t).map (mapTag f)) (p : List Dir) :
    (t.mapTag f).modify g' p = (t.modify g p).map (mapTag f) := by
  induction p generalizing t with
  | nil => simp [hg]
  | cons d p ih =>
    rcases leaf_or_join d t with ⟨c, k, o, rfl⟩ | ⟨c, k, a, b, rfl⟩
    · cases d <;> rfl
    · simp [ih, Function.comp_def]

end MapTag

/-! ## Rotations and edits -/

/-- The rotation that takes the right child up. The node keeps its place and
its tag; the child moves to the left, with its own tag, and the two
exchange their keys. -/
def leftRotation : LeafTree τ κ ο → Option (LeafTree τ κ ο)
  | node c k a (node c' k' b e) => some (node c k' (node c' k a b) e)
  | _ => none

/-- The rotation that takes the left child up. -/
def rightRotation : LeafTree τ κ ο → Option (LeafTree τ κ ο)
  | node c k (node c' k' a b) e => some (node c k' a (node c' k b e))
  | _ => none

/-- The rotation after which the moved child is on side `d`. -/
def rotation : Dir → LeafTree τ κ ο → Option (LeafTree τ κ ο)
  | .left => leftRotation
  | .right => rightRotation

inductive Edit (τ : Type*) where
  | rotate (p : List Dir) (d : Dir)
  | paint (p : List Dir) (c : τ)
  deriving DecidableEq, Repr

def edit : Edit τ → LeafTree τ κ ο → Option (LeafTree τ κ ο)
  | .rotate p d => modify (rotation d) p
  | .paint p c => modify (fun t => some (t.paint c)) p

/-- The edits of a list, the first one first. -/
def edits : List (Edit τ) → LeafTree τ κ ο → Option (LeafTree τ κ ο)
  | [], t => some t
  | e :: es, t => (t.edit e).bind (edits es)

@[simp] theorem edits_nil : t.edits [] = some t := rfl

variable {es : List (Edit τ)}

@[simp] theorem edits_rotate :
    t.edits (.rotate p d :: es) = (t.modify (rotation d) p).bind (edits es) := rfl

@[simp] theorem edits_paint :
    t.edits (.paint p c :: es) = (t.modify (fun t => some (t.paint c)) p).bind (edits es) := rfl

@[simp] theorem rotation_join :
    rotation d (join d c k a (join d c' k' b e)) = some (join d c k' (join d c' k a b) e) := by
  cases d <;> rfl

@[simp] theorem rotation_join_flip :
    rotation d.flip (join d c k (join d c' k' a b) e) = some (join d c k' a (join d c' k b e)) := by
  cases d <;> rfl

@[simp] theorem rotation_join_flip_leaf : rotation d.flip (join d c k (leaf c' k' o) e) = none := by
  cases d <;> rfl

theorem rotation_eq_some (h : rotation d t = some t') :
    ∃ c c' k k' a b e, t = join d c k a (join d c' k' b e) ∧
      t' = join d c k' (join d c' k a b) e := by
  cases d with
  | left =>
    rcases t with _ | ⟨c, k, a, _ | ⟨c', k', b, e⟩⟩
    case node.node =>
      exact ⟨c, c', k, k', a, b, e, rfl, (Option.some.inj h).symm⟩
    all_goals exact absurd h (by simp [rotation, leftRotation])
  | right =>
    rcases t with _ | ⟨c, k, _ | ⟨c', k', e, b⟩, a⟩
    case node.node =>
      exact ⟨c, c', k, k', a, b, e, rfl, (Option.some.inj h).symm⟩
    all_goals exact absurd h (by simp [rotation, rightRotation])

/-! ## Search order -/

section Order

variable [LinearOrder κ]

/-- Every entry on the left of a node has a key below the node's, every entry
on its right a key that is not below it. -/
def Search : LeafTree τ κ ο → Prop
  | leaf _ _ _ => True
  | node _ k l r =>
    (∀ p ∈ l.toList, p.1 < k) ∧ (∀ p ∈ r.toList, k ≤ p.1) ∧ l.Search ∧ r.Search

instance decidableSearch : (t : LeafTree τ κ ο) → Decidable t.Search
  | leaf _ _ _ => inferInstanceAs (Decidable True)
  | node _ k l r =>
    have := decidableSearch l
    have := decidableSearch r
    inferInstanceAs (Decidable ((∀ p ∈ l.toList, p.1 < k) ∧ (∀ p ∈ r.toList, k ≤ p.1) ∧
      l.Search ∧ r.Search))

/-- The side of a node with key `k'` on which the key `k` is searched. -/
def toward (k k' : κ) : Dir := if k < k' then .left else .right

/-- `x` may stand on side `d` of a node with key `k`. -/
def OnSide (d : Dir) (k x : κ) : Prop :=
  match d with
  | .left => x < k
  | .right => k ≤ x

theorem toward_eq_iff : toward k k' = d ↔ OnSide d k' k := by
  unfold toward OnSide
  cases d <;> split <;> simp_all

variable {x y : κ} {o' : ο}

theorem OnSide.ne_of_flip (hx : OnSide d k x) (hy : OnSide d.flip k y) : y ≠ x := by
  rintro rfl
  cases d
  · exact absurd hx (not_lt_of_ge hy)
  · exact absurd hy (not_lt_of_ge hx)

/-- A leaf split in two for a new key: the greater key directs the search. -/
theorem Search.of_split (hk : k' ≠ k)
    (ht : t = if k' < k then node c k (leaf c' k' o') (leaf c' k o) else node c k' (leaf c' k o)
      (leaf c' k' o')) :
    t.Search := by
  subst ht
  by_cases hlt : k' < k
  · simp [hlt, Search, toList]
  · have hgt : k < k' := lt_of_le_of_ne (not_lt.1 hlt) (Ne.symm hk)
    simp [hlt, hgt, Search, toList]

theorem mem_of_split
    (ht : t = if k' < k then node c k (leaf c' k' o') (leaf c' k o) else node c k' (leaf c' k o)
      (leaf c' k' o'))
    (p : κ × ο) : p ∈ t.toList ↔ p = (k', o') ∨ p = (k, o) := by
  subst ht
  by_cases hlt : k' < k
  · simp [hlt, toList]
  · simp [hlt, toList, or_comm]

theorem search_join : (join d c k a b).Search ↔ (∀ p ∈ a.toList, OnSide d k p.1) ∧
      (∀ p ∈ b.toList, OnSide d.flip k p.1) ∧ a.Search ∧ b.Search := by
  cases d
  · exact Iff.rfl
  · constructor
    · rintro ⟨h1, h2, h3, h4⟩
      exact ⟨h2, h1, h4, h3⟩
    · rintro ⟨h1, h2, h3, h4⟩
      exact ⟨h2, h1, h4, h3⟩

@[simp] theorem search_paint : (t.paint c).Search ↔ t.Search := by
  cases t <;> rfl

/-- A key on the `d` side of `k` is on the `d` side of every key that has an
entry beyond `k` on its own `d` side. -/
theorem OnSide.trans (hx : OnSide d k x) (hy : OnSide d.flip k y) (hy' : OnSide d k' y) :
    OnSide d k' x := by
  cases d
  · exact lt_trans (lt_of_lt_of_le hx hy) hy'
  · exact le_trans hy' (le_of_lt (lt_of_lt_of_le hy hx))

/-- The key of every node lies between the keys of the entries around it, so
it is itself on the side of an ancestor on which its entries are. -/
theorem Search.key_onSide (ht : t.Search)
    (h : ∀ p ∈ t.toList, OnSide d k p.1) : OnSide d k t.key := by
  cases t with
  | leaf c k' o => exact h (k', o) (by simp [toList])
  | node c k' l r =>
    obtain ⟨hl, hr, -, -⟩ := ht
    cases d with
    | left =>
      obtain ⟨p, hp⟩ := r.toList_ne_nil
      exact lt_of_le_of_lt (hr p hp) (h p (by simp [toList, hp]))
    | right =>
      obtain ⟨p, hp⟩ := l.toList_ne_nil
      exact le_of_lt (lt_of_le_of_lt (h p (by simp [toList, hp])) (hl p hp))

/-- The key of a subtree shows on which side of a node it is. -/
theorem toward_key
    (h : (join d c k a b).Search) (ht : t.Search) (hsub : ∀ p ∈ t.toList, p ∈ a.toList) :
    toward t.key k = d :=
  toward_eq_iff.2 (ht.key_onSide fun p hp => (search_join.1 h).1 p (hsub p hp))

/-- A search that goes to the side `d` of a node goes to the side `d` of a
parent that has the node on that side. -/
theorem toward_top {k1 k2 : κ} {e : LeafTree τ κ ο}
    (h : (join d c k2 (join d c' k1 a b) e).Search) (hd : toward k k1 = d) : toward k k2 = d := by
  obtain ⟨p, hp⟩ := b.toList_ne_nil
  obtain ⟨htop, -, hs, -⟩ := search_join.1 h
  exact toward_eq_iff.2 ((toward_eq_iff.1 hd).trans ((search_join.1 hs).2.1 p hp)
    (htop p (mem_toList_join.2 (.inr hp))))

theorem Search.rotation (ht : t.Search) (h : rotation d t = some t') : t'.Search := by
  obtain ⟨c, c', k, k', a, b, e, rfl, rfl⟩ := rotation_eq_some h
  obtain ⟨ha, hbe, hsa, hs⟩ := search_join.1 ht
  obtain ⟨hb, he, hsb, hse⟩ := search_join.1 hs
  obtain ⟨q, hq⟩ := b.toList_ne_nil
  have hab : ∀ p ∈ a.toList, OnSide d k' p.1 := fun p hp =>
    (ha p hp).trans (hbe q (mem_toList_join.2 (.inl hq))) (hb q hq)
  refine search_join.2 ⟨fun p hp => (mem_toList_join.1 hp).elim (hab p) (hb p), he, ?_, hse⟩
  exact search_join.2 ⟨ha, fun p hp => hbe p (mem_toList_join.2 (.inl hp)), hsa, hsb⟩

/-- `t'` has the entries of `t`, and is in search order if `t` is. -/
def Keeps (t t' : LeafTree τ κ ο) : Prop :=
  (∀ p, p ∈ t'.toList ↔ p ∈ t.toList) ∧ (t.Search → t'.Search)

theorem Keeps.rotation (h : rotation d t = some t') : Keeps t t' := by
  refine ⟨fun q => ?_, fun hs => hs.rotation h⟩
  obtain ⟨c, c', k, k', a, b, e, rfl, rfl⟩ := rotation_eq_some h
  simp only [mem_toList_join, or_assoc]

theorem Keeps.paint (c : τ) (t : LeafTree τ κ ο) : Keeps t (t.paint c) :=
  ⟨fun q => by simp, search_paint.2⟩

end Order

/-- A relation between trees that may be used at any place of a tree. -/
structure IsCongr (R : LeafTree τ κ ο → LeafTree τ κ ο → Prop) : Prop where
  refl : ∀ t, R t t
  trans : ∀ {t1 t2 t3}, R t1 t2 → R t2 t3 → R t1 t3
  join : ∀ {d c k a a' b}, R a a' → R (join d c k a b) (join d c k a' b)

theorem IsCongr.modify {R : LeafTree τ κ ο → LeafTree τ κ ο → Prop} (hR : IsCongr R)
    (hf : ∀ t t', f t = some t' → R t t') (h : t.modify f p = some t') : R t t' := by
  induction p generalizing t t' with
  | nil => exact hf t t' (by simpa using h)
  | cons d p ih =>
    rcases leaf_or_join d t with ⟨c, k, o, rfl⟩ | ⟨c, k, a, b, rfl⟩
    · cases d <;> cases h
    · rw [modify_join] at h
      obtain ⟨a', ha', rfl⟩ := Option.map_eq_some_iff.1 h
      exact hR.join (ih ha')

section Order

variable [LinearOrder κ]

theorem isCongr_keeps : IsCongr (Keeps (τ := τ) (κ := κ) (ο := ο)) where
  refl t := ⟨fun _ => Iff.rfl, id⟩
  trans h1 h2 := ⟨fun q => (h2.1 q).trans (h1.1 q), h2.2 ∘ h1.2⟩
  join := by
    rintro d c k a a' b ⟨hm, hs⟩
    refine ⟨fun q => by simp [mem_toList_join, hm q], fun h => ?_⟩
    obtain ⟨h1, h2, h3, h4⟩ := search_join.1 h
    exact search_join.2 ⟨fun q hq => h1 q ((hm q).1 hq), h2, hs h3, h4⟩

theorem edit_keeps {e : Edit τ} (h : t.edit e = some t') : Keeps t t' := by
  cases e with
  | rotate p d => exact isCongr_keeps.modify (fun _ _ => Keeps.rotation) h
  | paint p c =>
    refine isCongr_keeps.modify (fun t t' ht => ?_) h
    exact Option.some.inj ht ▸ Keeps.paint c t

theorem edits_keeps {es : List (Edit τ)} (h : t.edits es = some t') : Keeps t t' := by
  induction es generalizing t with
  | nil => exact Option.some.inj h ▸ isCongr_keeps.refl t
  | cons e es ih =>
    obtain ⟨t1, h1, h2⟩ := Option.bind_eq_some_iff.1 h
    exact isCongr_keeps.trans (edit_keeps h1) (ih h2)

theorem search_mapTag {τ' : Type*} {f : τ → τ'} : (t.mapTag f).Search ↔ t.Search := by
  induction t with
  | leaf => exact Iff.rfl
  | node c k l r ihl ihr => simp [mapTag, Search, ihl, ihr]

theorem keeps_mapTag {τ' : Type*} {f : τ → τ'} : Keeps (t.mapTag f) (t'.mapTag f) ↔ Keeps t t' := by
  simp [Keeps, search_mapTag]

end Order

end LeafTree

end CLangProject

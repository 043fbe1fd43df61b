import CLangProject.LeafTree
import CLangProject.Dictionary

/-!
# Places in a leaf tree

The place of a subtree in a tree is a context: the list of nodes above it,
the nearest first, each with the side the subtree is on and with its other
child. A program that walks down a tree and keeps the nodes on its way on a
stack has the context on that stack.

A context that a search for the key `k` produces `Guides k`, and then no entry
outside the subtree has that key. `Placed` is the resulting interface: whoever
has searched for `k` may add or remove the entry with that key in the subtree
alone, and has added or removed it in the tree (`Placed.insert`,
`Placed.erase`).
-/

namespace CLangProject

open List

namespace LeafTree

variable {τ κ ο : Type*}

/-! ## Contexts -/

/-- One node above a subtree: the side the subtree is on, and the rest of
the node. -/
structure Frame (τ κ ο : Type*) where
  dir : Dir
  tag : τ
  key : κ
  other : LeafTree τ κ ο

/-- The nodes above a subtree, the nearest first. -/
abbrev Context (τ κ ο : Type*) := List (Frame τ κ ο)

variable {t t' a b : LeafTree τ κ ο} {fs : Context τ κ ο} {k : κ} {c : τ} {o : ο} {d : Dir}

def Frame.fill (f : Frame τ κ ο) (t : LeafTree τ κ ο) : LeafTree τ κ ο :=
  join f.dir f.tag f.key t f.other

/-- The whole tree, with `t` at the place the context describes. -/
def plug : Context τ κ ο → LeafTree τ κ ο → LeafTree τ κ ο
  | [], t => t
  | f :: fs, t => plug fs (f.fill t)

/-- Walk down a path, collecting the context. -/
def focus : List Dir → LeafTree τ κ ο → Context τ κ ο → Option (LeafTree τ κ ο × Context τ κ ο)
  | [], t, fs => some (t, fs)
  | .left :: p, node c k l r, fs => focus p l (⟨.left, c, k, r⟩ :: fs)
  | .right :: p, node c k l r, fs => focus p r (⟨.right, c, k, l⟩ :: fs)
  | _ :: _, leaf _ _ _, _ => none

theorem focus_join {p : List Dir} :
    focus (d :: p) (join d c k a b) fs = focus p a (⟨d, c, k, b⟩ :: fs) := by
  cases d <;> rfl

theorem mem_plug {p : κ × ο} :
    p ∈ (plug fs t).toList ↔ p ∈ t.toList ∨ ∃ f ∈ fs, p ∈ f.other.toList := by
  induction fs generalizing t with
  | nil => simp [plug]
  | cons f fs ih => simp [plug, ih, Frame.fill, mem_toList_join, or_assoc]

theorem IsCongr.plug {R : LeafTree τ κ ο → LeafTree τ κ ο → Prop} (hR : IsCongr R) (h : R t t')
    (fs : Context τ κ ο) : R (plug fs t) (plug fs t') := by
  induction fs generalizing t t' with
  | nil => exact h
  | cons f fs ih => exact ih (hR.join h)

def Frame.mapTag {τ' : Type*} (f : τ → τ') (e : Frame τ κ ο) : Frame τ' κ ο :=
  ⟨e.dir, f e.tag, e.key, e.other.mapTag f⟩

variable {e : Frame τ κ ο}

theorem Frame.tag_mapTag {τ' : Type*} {f : τ → τ'} : (e.mapTag f).tag = f e.tag := rfl

theorem Frame.fill_mapTag {τ' : Type*} {f : τ → τ'} :
    (e.mapTag f).fill (t.mapTag f) = (e.fill t).mapTag f := by
  simp [Frame.fill, Frame.mapTag]

theorem plug_mapTag {τ' : Type*} {f : τ → τ'} :
    LeafTree.plug (fs.map (Frame.mapTag f)) (t.mapTag f) = (LeafTree.plug fs t).mapTag f := by
  induction fs generalizing t with
  | nil => rfl
  | cons e fs ih => rw [map_cons, LeafTree.plug, Frame.fill_mapTag, ih, LeafTree.plug]

/-! ## Search -/

section Order

variable [LinearOrder κ]

/-- The search for `k` takes the way the context describes. -/
def Guides (k : κ) (fs : Context τ κ ο) : Prop := ∀ f ∈ fs, OnSide f.dir f.key k

variable {f : Frame τ κ ο} {x : κ}

theorem Guides.cons (hf : OnSide f.dir f.key k) (h : Guides k fs) : Guides k (f :: fs) := by
  simpa [Guides] using ⟨hf, h⟩

theorem Search.of_plug (h : (plug fs t).Search) : t.Search := by
  induction fs generalizing t with
  | nil => exact h
  | cons f fs ih => exact (search_join.1 (ih h)).2.2.1

/-- A subtree may be replaced by one in search order whose entries come from
the old subtree or have a key that the search would look for here. -/
theorem Search.plug (h : (plug fs t).Search) (hg : Guides k fs) (ht' : t'.Search)
    (hm : ∀ p ∈ t'.toList, p ∈ t.toList ∨ p.1 = k) : (LeafTree.plug fs t').Search := by
  induction fs generalizing t t' with
  | nil => exact ht'
  | cons f fs ih =>
    obtain ⟨ha, hb, -, hs⟩ := search_join.1 (Search.of_plug (t := f.fill t) h)
    obtain ⟨hf, hg⟩ := forall_mem_cons.1 hg
    refine ih h hg (search_join.2 ⟨fun p hp => ?_, hb, ht', hs⟩) fun p hp => ?_
    · rcases hm p hp with hp | rfl
      · exact ha p hp
      · exact hf
    · rcases mem_toList_join.1 hp with hp | hp
      · exact (hm p hp).imp_left fun h => mem_toList_join.2 (.inl h)
      · exact .inl (mem_toList_join.2 (.inr hp))

/-- Numbers between two that lead to a place lead there. -/
theorem Guides.between {y z : κ} (hx : Guides x fs) (hz : Guides z fs) (hxy : x ≤ y) (hyz : y ≤ z) :
    Guides y fs := by
  intro f hf
  have hfx := hx f hf
  have hfz := hz f hf
  cases hd : f.dir with
  | left =>
    rw [hd] at hfz
    exact hyz.trans_lt hfz
  | right =>
    rw [hd] at hfx
    exact le_trans hfx hxy

/-- The entries below a frame and beside it are on its two sides. -/
theorem Search.sides (h : (LeafTree.plug fs t).Search) (hf : f ∈ fs) :
    (∀ p ∈ t.toList, OnSide f.dir f.key p.1) ∧
      ∀ p ∈ f.other.toList, OnSide f.dir.flip f.key p.1 := by
  induction fs generalizing t with
  | nil => simp at hf
  | cons g fs ih =>
    rcases mem_cons.1 hf with rfl | hf
    · obtain ⟨ha, hb, -⟩ := search_join.1 (Search.of_plug (t := f.fill t) h)
      exact ⟨ha, hb⟩
    · obtain ⟨ha, hb⟩ := ih h hf
      exact ⟨fun p hp => ha p (mem_toList_join.2 (.inl hp)), hb⟩

/-- Outside the place to which the search for `k` leads, no entry has the key
`k`. -/
theorem Guides.other_ne (hg : Guides k fs) (h : (plug fs t).Search) (hf : f ∈ fs) {p : κ × ο}
    (hp : p ∈ f.other.toList) : p.1 ≠ k :=
  (hg f hf).ne_of_flip ((h.sides hf).2 p hp)

/-- Search for `k` down to a leaf, collecting the context. -/
def descend (k : κ) : LeafTree τ κ ο → Context τ κ ο → LeafTree τ κ ο × Context τ κ ο
  | leaf c k' o, fs => (leaf c k' o, fs)
  | node c k' l r, fs =>
    if k < k' then descend k l (⟨.left, c, k', r⟩ :: fs)
    else descend k r (⟨.right, c, k', l⟩ :: fs)

theorem plug_descend (k : κ) (t : LeafTree τ κ ο) (fs : Context τ κ ο) :
    plug (descend k t fs).2 (descend k t fs).1 = plug fs t := by
  fun_induction descend k t fs with
  | case1 => rfl
  | case2 _ _ _ _ _ _ ih | case3 _ _ _ _ _ _ ih => exact ih

theorem descend_leaf (k : κ) (t : LeafTree τ κ ο) (fs : Context τ κ ο) :
    ∃ c k' o, (descend k t fs).1 = leaf c k' o := by
  fun_induction descend k t fs with
  | case1 c k' o fs => exact ⟨c, k', o, rfl⟩
  | case2 _ _ _ _ _ _ ih | case3 _ _ _ _ _ _ ih => exact ih

theorem descend_eq (k : κ) (t : LeafTree τ κ ο) (fs : Context τ κ ο) :
    ∃ c k' o fs', descend k t fs = (leaf c k' o, fs') := by
  obtain ⟨c, k', o, h⟩ := descend_leaf k t fs
  exact ⟨c, k', o, _, Prod.ext h rfl⟩

theorem descend_mapTag {τ' : Type*} {f : τ → τ'} (k : κ) (t : LeafTree τ κ ο)
    (fs : Context τ κ ο) : descend k (t.mapTag f) (fs.map (Frame.mapTag f)) =
      ((descend k t fs).1.mapTag f, (descend k t fs).2.map (Frame.mapTag f)) := by
  fun_induction descend k t fs with
  | case1 => rfl
  | case2 c k' l r fs hk ih | case3 c k' l r fs hk ih =>
    simpa [mapTag, descend, hk, Frame.mapTag] using ih

/-- Look for the object with the key `k`. -/
def findIn (k : κ) : LeafTree τ κ ο → Option ο
  | leaf _ k' o => if k' = k then some o else none
  | node _ k' l r => if k < k' then findIn k l else findIn k r

theorem Search.findIn_eq_some (h : t.Search) : findIn k t = some o ↔ (k, o) ∈ t.toList := by
  induction t with
  | leaf c k' x =>
    by_cases hk : k' = k
    · simp [findIn, toList, hk, eq_comm]
    · simp [findIn, toList, hk, Ne.symm hk]
  | node c k' l r ihl ihr =>
    obtain ⟨hl, hr, hsl, hsr⟩ := h
    rw [findIn, toList, mem_append]
    split
    case isTrue hk =>
      rw [ihl hsl, or_iff_left fun hm => absurd (hr _ hm) (not_le_of_gt hk)]
    case isFalse hk =>
      rw [ihr hsr, or_iff_right fun hm => hk (hl _ hm)]

theorem findIn_mapTag {τ' : Type*} {f : τ → τ'} : findIn k (t.mapTag f) = findIn k t := by
  induction t with
  | leaf => rfl
  | node c k' l r ihl ihr => simp [mapTag, findIn, ihl, ihr]

/-- The key of the leaf to which the search for `x` leads. -/
def reach : LeafTree τ κ ο → κ → κ
  | leaf _ k _, _ => k
  | node _ k l r, x => if x < k then reach l x else reach r x

theorem reach_join :
    reach (join d c k a b) x = if toward x k = d then reach a x else reach b x := by
  cases d <;> by_cases h : x < k <;> simp [join, reach, toward, h]

theorem mem_reach (t : LeafTree τ κ ο) (x : κ) : ∃ o, (reach t x, o) ∈ t.toList := by
  induction t with
  | leaf c k o => exact ⟨o, by simp [reach, toList]⟩
  | node c k l r ihl ihr =>
    by_cases h : x < k
    · obtain ⟨o, ho⟩ := ihl
      exact ⟨o, by simp [reach, h, toList, ho]⟩
    · obtain ⟨o, ho⟩ := ihr
      exact ⟨o, by simp [reach, h, toList, ho]⟩

theorem findIn_isSome : (findIn k t).isSome ↔ reach t k = k := by
  induction t with
  | leaf c k' o => by_cases h : k' = k <;> simp [findIn, reach, h]
  | node c k' l r ihl ihr => by_cases h : k < k' <;> simp [findIn, reach, h, ihl, ihr]

/-- The stored keys are those that reach themselves. -/
theorem Search.reach_eq (h : t.Search) : reach t k = k ↔ ∃ o, (k, o) ∈ t.toList := by
  simp only [← findIn_isSome, Option.isSome_iff_exists, h.findIn_eq_some]

/-- What `x` reaches either depends on the subtree at a given place alone, or
not on it at all. -/
theorem reach_plug (fs : Context τ κ ο) (x : κ) : (∀ t, reach (LeafTree.plug fs t) x = reach t x) ∨
      ∀ t t', reach (LeafTree.plug fs t) x = reach (LeafTree.plug fs t') x := by
  induction fs with
  | nil => exact .inl fun _ => rfl
  | cons f fs ih =>
    rcases ih with ih | ih
    · by_cases h : toward x f.key = f.dir
      · exact .inl fun t => by rw [LeafTree.plug, ih, Frame.fill, reach_join, if_pos h]
      · refine .inr fun t t' => ?_
        rw [LeafTree.plug, LeafTree.plug, ih, ih, Frame.fill, Frame.fill, reach_join, reach_join,
          if_neg h, if_neg h]
    · exact .inr fun t t' => ih _ _

theorem reach_guided (h : Guides x fs) : reach (LeafTree.plug fs t) x = reach t x := by
  induction fs generalizing t with
  | nil => rfl
  | cons f fs ih =>
    obtain ⟨hf, hfs⟩ := forall_mem_cons.1 h
    rw [LeafTree.plug, ih hfs, Frame.fill, reach_join, if_pos (toward_eq_iff.2 hf)]

theorem reach_mapTag {τ' : Type*} {f : τ → τ'} : reach (t.mapTag f) x = reach t x := by
  induction t with
  | leaf => rfl
  | node c k l r ihl ihr => simp [mapTag, reach, ihl, ihr]

/-- The entries are in increasing order. -/
theorem Search.increasing (h : t.Search) : t.toList.Pairwise (·.1 < ·.1) := by
  induction t with
  | leaf c k o => exact pairwise_singleton _ _
  | node c k l r ihl ihr =>
    obtain ⟨hl, hr, hsl, hsr⟩ := h
    exact pairwise_append.2 ⟨ihl hsl, ihr hsr, fun p hp q hq => (hl p hp).trans_le (hr q hq)⟩

theorem Search.nodup (h : t.Search) : (t.toList.map Prod.fst).Nodup :=
  pairwise_map.2 (h.increasing.imp ne_of_lt)

theorem Search.length_le_card [Fintype κ] (h : t.Search) : t.toList.length ≤ Fintype.card κ := by
  simpa using h.nodup.length_le_card

/-- `t` stands at the place `fs` of a search tree with the entries `es`, where
the search for `k` has come to. -/
structure Placed (k : κ) (es : List (κ × ο)) (fs : Context τ κ ο) (t : LeafTree τ κ ο) : Prop where
  inOrder : (plug fs t).Search
  guides : Guides k fs
  entries : ∀ p, p ∈ (plug fs t).toList ↔ p ∈ es

variable {k : κ} {es : List (κ × ο)} {fs : Context τ κ ο} {t : LeafTree τ κ ο}

theorem Search.placed (h : t.Search) (k : κ) : Placed k t.toList [] t :=
  ⟨h, by simp [Guides], fun _ => Iff.rfl⟩

theorem Placed.search (h : Placed k es fs t) : t.Search := h.inOrder.of_plug

/-- Go down one step, in the direction of the search. -/
theorem Placed.down {k' : κ} (h : Placed k es fs (join d c k' a b)) (hd : toward k k' = d) :
    Placed k es (⟨d, c, k', b⟩ :: fs) a :=
  ⟨h.inOrder, h.guides.cons (toward_eq_iff.1 hd), h.entries⟩

theorem Placed.up (h : Placed k es (f :: fs) t) : Placed k es fs (f.fill t) :=
  ⟨h.inOrder, (forall_mem_cons.1 h.guides).2, h.entries⟩

theorem Placed.descend (h : Placed k es fs t) :
    Placed k es (descend k t fs).2 (descend k t fs).1 := by
  fun_induction LeafTree.descend k t fs with
  | case1 => exact h
  | case2 c k' l r fs hk ih => exact ih (Placed.down (d := .left) h (by simp [toward, hk]))
  | case3 c k' l r fs hk ih => exact ih (Placed.down (d := .right) h (by simp [toward, hk]))

/-- An entry with the key `k` is at the place the search has come to. -/
theorem Placed.mem_iff (h : Placed k es fs t) : (k, o) ∈ es ↔ (k, o) ∈ t.toList := by
  rw [← h.entries, mem_plug]
  refine ⟨fun hp => hp.elim id ?_, .inl⟩
  rintro ⟨f, hf, hp⟩
  exact absurd rfl (h.guides.other_ne h.inOrder hf hp)

theorem Placed.absent {k' : κ} (h : Placed k es fs (leaf c k' o)) (hk : k' ≠ k) (x : ο) :
    (k, x) ∉ es := by
  simp [h.mem_iff, toList, hk.symm]

/-- Without an entry with the key `k`, the parent of the place has the entries
of the other child. -/
theorem Placed.mem_other (h : Placed k es (f :: fs) (leaf c k o)) (p : κ × ο) :
    p ∈ f.other.toList ↔ p ∈ (f.fill (leaf c k o)).toList ∧ p.1 ≠ k := by
  have hne : ∀ p ∈ f.other.toList, p.1 ≠ k := fun p hp =>
    h.guides.other_ne h.inOrder mem_cons_self hp
  rw [Frame.fill, mem_toList_join]
  constructor
  · exact fun hp => ⟨.inr hp, hne p hp⟩
  · rintro ⟨hp | hp, hk⟩
    · obtain rfl : p = (k, o) := by simpa [toList] using hp
      exact absurd rfl hk
    · exact hp

theorem Placed.search_other (h : Placed k es (f :: fs) t) : f.other.Search :=
  (search_join.1 h.up.search).2.2.2

section

variable (h : Placed k es fs t)
include h

/-- Put another subtree at the place, in search order and with no new key but
`k`. -/
theorem Placed.replace (hs : t'.Search)
    (hm : ∀ p ∈ t'.toList, p ∈ t.toList ∨ p.1 = k) : (plug fs t').Search :=
  h.inOrder.plug h.guides hs hm

/-- Rearranging the subtree does not change what the tree has. -/
theorem Placed.rearrange (hs : t'.Search)
    (hm : ∀ p, p ∈ t'.toList ↔ p ∈ t.toList) : Placed k es fs t' := by
  refine ⟨h.replace hs fun p hp => .inl ((hm p).1 hp), h.guides, fun p => ?_⟩
  rw [← h.entries, mem_plug, mem_plug, hm]

/-- Adding an entry with the key `k` to the subtree adds it to the tree. -/
theorem Placed.insert (hm : ∀ p, p ∈ t'.toList ↔ p ∈ t.toList ∨ p = (k, o)) (p : κ × ο) :
    p ∈ (plug fs t').toList ↔ p ∈ es ∨ p = (k, o) := by
  rw [← h.entries, mem_plug, mem_plug, hm, or_right_comm]

/-- Taking the entry with the key `k` out of the subtree takes it out of the
tree. -/
theorem Placed.erase (hm : ∀ p, p ∈ t'.toList ↔ p ∈ t.toList ∧ p.1 ≠ k) (p : κ × ο) :
    p ∈ (plug fs t').toList ↔ p ∈ es ∧ p.1 ≠ k := by
  rw [← h.entries, mem_plug, mem_plug, hm, or_and_right]
  refine or_congr_right ⟨fun hp => ⟨hp, ?_⟩, And.left⟩
  obtain ⟨f, hf, hp⟩ := hp
  exact h.guides.other_ne h.inOrder hf hp

end

/-- An entry is added where the search for its key has ended. -/
theorem Placed.inserted {k' : κ} {o' : ο} (h : Placed k es fs (leaf c k' o')) (hk : k' ≠ k)
    (hs : t'.Search) (hm : ∀ p, p ∈ t'.toList ↔ p ∈ (leaf c k' o').toList ∨ p = (k, o)) :
    (LeafTree.plug fs t').Search ∧ Inserted es k o (LeafTree.plug fs t').toList 0 :=
  ⟨h.replace hs fun p hp => ((hm p).1 hp).imp_right (congrArg Prod.fst),
    fun ⟨x, hx⟩ => absurd hx (h.absent hk x), fun _ => ⟨rfl, h.insert hm⟩⟩

/-- A leaf is deleted by putting its sibling in the place of their parent. -/
theorem Placed.deleted (h : Placed k es (f :: fs) (leaf c k o)) :
    (LeafTree.plug fs f.other).Search ∧ Deleted es k (LeafTree.plug fs f.other).toList (some o) :=
  ⟨h.up.replace h.search_other fun p hp => .inl ((h.mem_other p).1 hp).1,
    fun x => Iff.trans (by simp [toList, eq_comm]) h.mem_iff.symm, h.up.erase h.mem_other⟩

end Order

/-! ## Possibly empty trees -/

/-- A tree as its owner holds it: `none` while it has no entry. -/
abbrev Root (τ κ ο : Type*) := Option (LeafTree τ κ ο)

def Root.entries : Root τ κ ο → List (κ × ο)
  | none => []
  | some t => t.toList

section Order

variable [LinearOrder κ]

def Root.Search : Root τ κ ο → Prop
  | none => True
  | some t => LeafTree.Search t

def Root.find : Root τ κ ο → κ → Option ο
  | none, _ => none
  | some t, k => findIn k t

/-- A search tree shows the dictionary of its entries. -/
theorem Root.Search.find_eq {t : Root τ κ ο} (h : t.Search) {m : Dict κ ο}
    (hm : Holds t.entries m) (k : κ) : t.find k = m k := by
  refine Option.ext fun o => ?_
  rw [← hm k o]
  cases t with
  | none => simp [find, entries]
  | some t => exact LeafTree.Search.findIn_eq_some h

end Order

end LeafTree

end CLangProject

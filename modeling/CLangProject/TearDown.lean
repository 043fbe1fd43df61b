import CLangProject.Cells

/-!
# Tearing down a tree by rotations

`remove_tree` of `triv_tree.c` and `remove_heap` of `left_heap.c` return the nodes of a tree to the
pool without a stack: the loop rotates to the right as long as there is something below the left
child, and then goes to the right child. A node that has been returned is not there any more, so
that reading it, or returning it once more, has no result.

A rotation returns nothing. The induction is on the left subtree: the loop comes to the right child,
with the root and the left subtree gone (`gone_left`), because after a rotation the two parts of the
left subtree are left subtrees one after the other.
-/

namespace CLangProject.TearDown

open List Option Function

/-- The fields that the loops read. In a leaf of `triv_tree.c` the left pointer is the object; only
the nodes of `left_heap.c` have a rank. -/
structure Node where
  left : Option Nat
  right : Option Nat
  rank : Nat
  deriving DecidableEq

abbrev Mem := Cells Node

def setLeft (m : Mem) (a : Nat) (p : Option Nat) : Option Mem :=
  m.modify a fun n => { n with left := p }

def setRight (m : Mem) (a : Nat) (p : Option Nat) : Option Mem :=
  m.modify a fun n => { n with right := p }

/-! ## The code -/

/-- The loop of `remove_tree`. -/
def removeLoop : (fuel : Nat) → Mem → (currentNode : Nat) → Option Mem
  | 0, _, _ => none
  | fuel + 1, m, currentNode => do
    let c ← m currentNode
    match c.right with
    | none => m.free currentNode
    | some right =>
      let left ← c.left
      let l ← m left
      match l.right with
      | none =>
        let m ← m.free left
        let m ← m.free currentNode
        removeLoop fuel m right
      | some tmp =>
        let m ← setLeft m currentNode (some tmp)
        let m ← setRight m left (some currentNode)
        removeLoop fuel m left

def removeTree (fuel : Nat) (m : Mem) (tree : Nat) : Option Mem := do
  let t ← m tree
  match t.left with
  | none => m.free tree
  | some _ => removeLoop fuel m tree

/-- The loop of `remove_heap`. -/
def heapLoop : (fuel : Nat) → Mem → (currentNode : Option Nat) → Option Mem
  | _, m, none => some m
  | 0, _, some _ => none
  | fuel + 1, m, some currentNode => do
    let c ← m currentNode
    match c.left with
    | none =>
      let m ← m.free currentNode
      heapLoop fuel m c.right
    | some left =>
      let l ← m left
      let m ← setLeft m currentNode l.right
      let m ← setRight m left (some currentNode)
      heapLoop fuel m (some left)

def removeHeap (fuel : Nat) (m : Mem) (hp : Nat) : Option Mem := do
  let h ← m hp
  if h.rank = 0 then m.free hp else heapLoop fuel m (some hp)

/-! ## Rotations -/

/-- A tree with its nodes; `base` stands for the nodes of a tree that is not rotated any more. -/
inductive Shape where
  | base (cells : List Nat)
  | node (a : Nat) (l r : Shape)

def Shape.cells : Shape → List Nat
  | base cells => cells
  | node a l r => a :: (l.cells ++ r.cells)

/-- The tree `t` is at the pointer `p`, with `Base` for what is not rotated. -/
def Stored (Base : Mem → Option Nat → List Nat → Prop) (m : Mem) (p : Option Nat) : Shape → Prop
  | .base cells => Base m p cells
  | .node a l r => p = some a ∧ ∃ n, m a = some n ∧ Stored Base m n.left l ∧ Stored Base m n.right r

/-- The nodes in `s` have been returned. -/
def gone (m : Mem) (s : List Nat) : Mem := fun a => if a ∈ s then none else m a

variable {m m' : Mem} {p : Option Nat} {a b : Nat} {n n' : Node} {s s' : List Nat}

theorem gone_gone (m : Mem) (s s' : List Nat) : gone (gone m s) s' = gone m (s ++ s') := by
  funext c
  by_cases hs : c ∈ s <;> simp [gone, hs]

theorem gone_perm (h : s.Perm s') : gone m s = gone m s' :=
  funext fun c => by simp only [gone, h.mem_iff]

theorem gone_of_notMem (h : a ∉ s) : gone m s a = m a := if_neg h

@[simp] theorem gone_nil : gone m [] = m := rfl

theorem free_gone (h : m a = some n) : m.free a = some (gone m [a]) := by
  rw [Cells.free_eq h]
  refine congrArg some (funext fun c => ?_)
  by_cases hc : c = a <;> simp [gone, hc]

/-- The memory after a rotation of the node `a` with its left child `b`. -/
def rotated (m : Mem) (a b : Nat) (n n' : Node) : Mem :=
  update (update m a (some { n with left := n'.right })) b (some { n' with right := some a })

theorem rotated_of_ne {c : Nat} (ha : c ≠ a) (hb : c ≠ b) : rotated m a b n n' c = m c := by
  rw [rotated, update_of_ne hb, update_of_ne ha]

theorem set_rotated (ha : m a = some n) (hb : m b = some n') (hab : a ≠ b) (f : Mem → Option Mem) :
    ((setLeft m a n'.right).bind fun m => (setRight m b (some a)).bind f) =
    f (rotated m a b n n') := by
  rw [setLeft, Cells.modify_eq ha, bind_some, setRight,
    Cells.modify_eq (by rwa [update_of_ne hab.symm]), rotated, bind_some]

/-- What a loop does at the end, with a tree whose left subtree is of the form `base`, and with any
other tree. -/
structure Loop (Base : Mem → Option Nat → List Nat → Prop)
    (loop : Nat → Mem → Option Nat → Option Mem) : Prop where
  congr : ∀ {m m' p s}, (∀ c ∈ s, m' c = m c) → Base m p s → Base m' p s
  ends : ∀ {m p s}, Base m p s → Ends (loop · m p) (gone m s)
  base : ∀ {m a n s r} fuel, m a = some n → Base m n.left s → Stored Base m n.right r → a ∉ s →
    loop (fuel + 1) m (some a) = loop fuel (gone m (a :: s)) n.right
  rotate : ∀ {m a b n n' y r} fuel, m a = some n → n.left = some b → Stored Base m n.right r →
      m b = some n' →
    Stored Base m n'.right y → a ≠ b →
      loop (fuel + 1) m (some a) = loop fuel (rotated m a b n n') (some b)

section

variable {Base : Mem → Option Nat → List Nat → Prop} {loop : Nat → Mem → Option Nat → Option Mem}
  (h : Loop Base loop)
include h

theorem Stored.congr {t : Shape} (hm : ∀ c ∈ t.cells, m' c = m c) (ht : Stored Base m p t) :
    Stored Base m' p t := by
  induction t generalizing p with
  | base s => exact h.congr hm ht
  | node a l r ihl ihr =>
    obtain ⟨hp, n, hn, hl, hr⟩ := ht
    simp only [Shape.cells, forall_mem_cons, forall_mem_append] at hm
    exact ⟨hp, n, hm.1.trans hn, ihl hm.2.1 hl, ihr hm.2.2 hr⟩

/-- The loop comes to the right child of a node when it has returned the node and the left subtree.
-/
theorem gone_left {l r : Shape} (ha : m a = some n) (hl : Stored Base m n.left l)
    (hr : Stored Base m n.right r) (hd : (a :: (l.cells ++ r.cells)).Nodup) :
    ∃ k, ∀ fuel, loop (fuel + k) m (some a) = loop fuel (gone m (a :: l.cells)) n.right := by
  induction l generalizing m a n r with
  | base s =>
    exact ⟨1, fun fuel => h.base fuel ha hl hr fun hs => (nodup_cons.1 hd).1 (mem_append_left _ hs)⟩
  | node b x y ihx ihy =>
    obtain ⟨hb, n', hn', hx, hy⟩ := hl
    simp only [Shape.cells, cons_append, append_assoc] at hd
    have hab : a ≠ b := fun heq => (nodup_cons.1 hd).1 (heq ▸ mem_cons_self)
    have hsame : ∀ c ∈ x.cells ++ (y.cells ++ r.cells), rotated m a b n n' c = m c := fun c hc =>
      rotated_of_ne (by grind) (by grind)
    have hroot : rotated m a b n n' a = some { n with left := n'.right } := by
      rw [rotated, update_of_ne hab, update_self]
    -- first `x` is the left subtree of `b`, with `a` to the right of `b`, and then `y` that of `a`
    obtain ⟨k1, h1⟩ := ihx (m := rotated m a b n n') (n := { n' with right := some a })
      (r := .node a y r) (update_self ..) (hx.congr h fun c hc => hsame c (by grind)) ⟨rfl, _,
          hroot, hy.congr h fun c hc => hsame c (by grind),
        hr.congr h fun c hc => hsame c (by grind)⟩ (by grind [Shape.cells])
    have hkeep : ∀ c ∈ a :: (y.cells ++ r.cells), gone (rotated m a b n n') (b :: x.cells) c =
        rotated m a b n n' c :=
      fun c hc => gone_of_notMem (by grind)
    obtain ⟨k2, h2⟩ := ihy (r := r) ((hkeep a mem_cons_self).trans hroot)
      (hy.congr h fun c hc => (hkeep c (by grind)).trans (hsame c (by grind)))
      (hr.congr h fun c hc => (hkeep c (by grind)).trans (hsame c (by grind))) (by grind)
    refine ⟨k2 + k1 + 1, fun fuel => ?_⟩
    rw [← Nat.add_assoc, ← Nat.add_assoc, h.rotate _ ha hb hr hn' hy hab, h1, h2, gone_gone]
    congr 1
    funext c
    by_cases hc : c ∈ a :: b :: (x.cells ++ y.cells)
    · rw [gone, gone, if_pos (by grind), if_pos (by grind [Shape.cells])]
    · rw [gone_of_notMem (by grind), gone_of_notMem (by grind [Shape.cells]),
        rotated_of_ne (by grind) (by grind)]

theorem ends_loop {t : Shape} (ht : Stored Base m p t) (hd : t.cells.Nodup) :
    Ends (loop · m p) (gone m t.cells) := by
  induction t generalizing m p with
  | base s => exact h.ends ht
  | node a l r ihl ihr =>
    obtain ⟨rfl, n, hn, hl, hr⟩ := ht
    obtain ⟨k, hk⟩ := gone_left h hn hl hr hd
    rw [Shape.cells, ← cons_append] at hd
    obtain ⟨-, hdr, hdisj⟩ := nodup_append'.1 hd
    have hrest := ihr (hr.congr h fun c hc => gone_of_notMem fun hc' => hdisj hc' hc) hdr
    rw [gone_gone] at hrest
    exact hrest.steps hk

end

/-! ## The two files -/

/-- A leaf of `triv_tree.c`; its object, also NULL, is the left pointer. -/
def IsLeaf (m : Mem) (p : Option Nat) (s : List Nat) : Prop :=
  ∃ a n, p = some a ∧ s = [a] ∧ m a = some n ∧ n.right = none

/-- No node of `left_heap.c`. -/
def IsNull (_ : Mem) (p : Option Nat) (s : List Nat) : Prop := p = none ∧ s = []

theorem Stored.exists_node {t : Shape} (h : Stored IsLeaf m p t) : ∃ a n, p = some a ∧
    m a = some n := by
  cases t with
  | base s =>
    obtain ⟨a, n, hp, -, hn, -⟩ := h
    exact ⟨a, n, hp, hn⟩
  | node a l r =>
    obtain ⟨hp, n, hn, -⟩ := h
    exact ⟨a, n, hp, hn⟩

theorem loop_tree : Loop IsLeaf fun fuel m p => p.bind (removeLoop fuel m) where
  congr := by
    rintro m m' p s hm ⟨a, n, hp, rfl, hn, hlr⟩
    exact ⟨a, n, hp, rfl, (hm a mem_cons_self).trans hn, hlr⟩
  ends := by
    rintro m p s ⟨a, n, rfl, rfl, hn, hr⟩
    refine .of_succ fun fuel => ?_
    simp [removeLoop, hn, hr, free_gone hn]
  base := by
    rintro m a n s r fuel hn ⟨b, n', hb, rfl, hn', hr'⟩ hr hab
    obtain ⟨c, -, hc, -⟩ := hr.exists_node
    have hfree := free_gone (m := gone m [b]) ((gone_of_notMem hab).trans hn)
    rw [gone_gone, singleton_append, gone_perm (.swap a b [])] at hfree
    simp [removeLoop, hn, hb, hn', hr', hc, free_gone hn', hfree]
  rotate := by
    intro m a b n n' y r fuel hn hb hr hn' hy hab
    obtain ⟨c, -, hc, -⟩ := hr.exists_node
    obtain ⟨d, -, hd, -⟩ := hy.exists_node
    have hset := set_rotated hn hn' hab (removeLoop fuel · b)
    rw [hd] at hset
    simpa [removeLoop, hn, hb, hn', hc, hd] using hset

theorem loop_heap : Loop IsNull heapLoop where
  congr := fun _ h => h
  ends := by
    rintro m p s ⟨rfl, rfl⟩
    refine .of_succ fun fuel => ?_
    simp [heapLoop, gone_nil]
  base := by
    rintro m a n s r fuel hn ⟨hb, rfl⟩ - -
    simp [heapLoop, hn, hb, free_gone hn]
  rotate := by
    rintro m a b n n' y r fuel hn hb - hn' - hab
    simpa [heapLoop, hn, hb, hn'] using set_rotated hn hn' hab (heapLoop fuel · (some b))

/-- Both functions return every node of a tree once and read no node that they have returned. -/
theorem removes_all (m : Mem) (a : Nat) :
    (∀ n, m a = some n → n.left = none → Ends (removeTree · m a) (gone m [a])) ∧
    (∀ t, Stored IsLeaf m (some a) t → t.cells.Nodup → Ends (removeTree · m a) (gone m t.cells)) ∧
    (∀ n, m a = some n → n.rank = 0 → Ends (removeHeap · m a) (gone m [a])) ∧
    ∀ n t, m a = some n → n.rank ≠ 0 → Stored IsNull m (some a) t → t.cells.Nodup →
      Ends (removeHeap · m a) (gone m t.cells) := by
  refine ⟨fun n hn hl => ?_, fun t ht hd => ?_, fun n hn hr => ?_, fun n t hn hr ht hd => ?_⟩
  · exact .of_eq fun fuel => by simp [removeTree, hn, hl, free_gone hn]
  · cases t with
    | base s =>
      obtain ⟨_, n, ⟨⟩, rfl, hn, hr⟩ := ht
      refine .of_succ fun fuel => ?_
      cases hl : n.left <;> simp [removeTree, removeLoop, hn, hl, hr, free_gone hn, Shape.cells]
    | node b l r =>
      obtain rfl : a = b := some.inj ht.1
      obtain ⟨n, hn, hl, -⟩ := ht.2
      obtain ⟨b, -, hb, -⟩ := hl.exists_node
      simpa [removeTree, hn, hb] using ends_loop loop_tree ht hd
  · exact .of_eq fun fuel => by simp [removeHeap, hn, hr, free_gone hn]
  · simpa [removeHeap, hn, hr] using ends_loop loop_heap ht hd

/-- A node with two leaves, the second one with a NULL object. -/
def threeNodes : Mem := fun a => [⟨some 1, some 2, 0⟩, ⟨some 7, none, 0⟩, ⟨none, none, 0⟩][a]?

/-- A heap of two elements. -/
def twoElems : Mem := fun a => [⟨some 1, none, 1⟩, ⟨none, none, 1⟩][a]?

theorem removes_all_small : Ends (removeTree · threeNodes 0) (gone threeNodes [0, 1, 2]) ∧
    Ends (removeHeap · twoElems 0) (gone twoElems [0, 1]) := by
  constructor
  · refine (removes_all threeNodes 0).2.1 (.node 0 (.base [1]) (.base [2])) ⟨rfl, _, rfl, ?_,
      ?_⟩ (by decide)
    · exact ⟨1, _, rfl, rfl, rfl, rfl⟩
    · exact ⟨2, _, rfl, rfl, rfl, rfl⟩
  · refine (removes_all twoElems 0).2.2.2 _ (.node 0 (.node 1 (.base []) (.base [])) (.base []))
      rfl (by decide) ⟨rfl, _, rfl, ?_, rfl, rfl⟩ (by decide)
    exact ⟨rfl, _, rfl, ⟨rfl, rfl⟩, rfl, rfl⟩

end CLangProject.TearDown

import CLangProject.RedBlack

/-!
# The top-down red-black tree of `ch3/t_rb_tree.c`

`insert` and `delete` repair the tree on the way down, in one pass without a
stack. Two pointers are kept: `current`, which walks towards the leaf, and
`upper`, the last node below which nothing more can change on the way back.
A `Cursor` is a pair of such pointers: the subtree of `upper` with its context,
and the path from `upper` to `current`, which is at most two nodes long.

A repair is a list of edits of the subtree of `upper`, together with the path
from `upper` to the node where the pass goes on. Where the source spells a
repair out for the left and again for the right, the two are mirror images
and one definition takes the side as a parameter. The exception is the start
of `delete`, where the right image tests another pointer than the left one
(`nearIsLeaf`).

No result (`none`) stands for following a NULL pointer, or for taking
something that is not a node for one.
-/

namespace CLangProject.TopDown

open LeafTree

variable {κ ο : Type}

/-- `upper`, given by its subtree and the context of it, and the path from
`upper` to `current`. -/
structure Cursor (κ ο : Type) where
  above : Context Color κ ο
  upper : LeafTree Color κ ο
  here : List Dir

namespace Cursor

def current (s : Cursor κ ο) : Option (LeafTree Color κ ο) := s.upper.sub s.here

/-- The whole tree. -/
def tree (s : Cursor κ ο) : LeafTree Color κ ο := plug s.above s.upper

/-- `current = current->left` or `current = current->right`. -/
def down (s : Cursor κ ο) (d : Dir) : Cursor κ ο := { s with here := s.here ++ [d] }

/-- Set both pointers to the node at the end of a path from `upper`. -/
def moveTo (s : Cursor κ ο) (p : List Dir) : Option (Cursor κ ο) :=
  (focus p s.upper s.above).map fun (t, fs) => ⟨fs, t, []⟩

/-- Repair the subtree of `upper`, then go on at the end of a path. -/
def repair (s : Cursor κ ο) (es : List (Edit Color)) (p : List Dir) : Option (Cursor κ ο) :=
  (s.upper.edits es).bind fun u => moveTo ⟨s.above, u, []⟩ p

variable {c : Color} {d : Dir} {a b : LeafTree Color κ ο} {as : List (Edit Color)} {k : κ}
  {s : Cursor κ ο}

theorem repair_one (h : s.upper.edits as = some (join d c k a b)) :
    s.repair as [d] = some ⟨⟨d, c, k, b⟩ :: s.above, a, []⟩ := by
  simp [repair, h, moveTo, focus_join, focus]

theorem repair_two {e : Dir} {c' : Color} {k' : κ} {b' : LeafTree Color κ ο}
    (h : s.upper.edits as = some (join d c k (join e c' k' a b') b)) :
    s.repair as [d, e] = some ⟨⟨e, c', k', b'⟩ :: ⟨d, c, k, b⟩ :: s.above, a, []⟩ := by
  simp [repair, h, moveTo, focus_join, focus]

end Cursor

/-- `t->right == NULL`: only a leaf has no right child. -/
def rightIsNull : LeafTree Color κ ο → Bool
  | leaf _ _ _ => true
  | node _ _ _ _ => false

/-- `t->left == NULL`: a leaf keeps its object there, which is not NULL. -/
def leftIsNull : LeafTree Color κ ο → Bool
  | leaf _ _ _ => false
  | node _ _ _ _ => false

variable [LinearOrder κ]

/-- `find`, without the colours it prints on the way. -/
def find (t : Root Color κ ο) (k : κ) : Option ο := t.find k

/-! ## Insertion -/

/-- `current == upper->left` or `current == upper->right`. -/
def splitChild (d : Dir) : List (Edit Color) :=
  [.paint [d, .left] .black, .paint [d, .right] .black, .paint [d] .red]

/-- `current == upper->left->left` or `current == upper->right->right`. -/
def splitOuter (d : Dir) : List (Edit Color) :=
  [.rotate [] d.flip, .paint [.left] .red, .paint [.right] .red,
    .paint [d, .left] .black, .paint [d, .right] .black]

/-- `current == upper->left->right` or `current == upper->right->left`. -/
def splitInner (d : Dir) : List (Edit Color) :=
  [.rotate [d] d, .rotate [] d.flip, .paint [.left] .red, .paint [.right] .red,
    .paint [.right, .left] .black, .paint [.left, .right] .black]

/-- The repair when `current` is black with two red children, and the path
from `upper` to `next_node` afterwards; `next_node` is the child of `current`
on side `go`. `atRoot` is `upper == NULL`. -/
def split (atRoot : Bool) (s : Cursor κ ο) (current : LeafTree Color κ ο) (go : Dir) :
    Option (List (Edit Color) × List Dir) :=
  if atRoot then
    some ([.paint (s.here ++ [.left]) .black, .paint (s.here ++ [.right]) .black], s.here ++ [go])
  else
    let d := toward current.key s.upper.key
    if s.here = [d] then some (splitChild d, [d, go])
    else if s.here = [d, d] then some (splitOuter d, [d, go])
    -- the double rotation separates the children of `current`
    else if s.here = [d, d.flip] then some (splitInner d, [go, go.flip])
    else none

/-- The loop of `insert`, down to a leaf. Every iteration goes down one node,
so the height of the tree is enough `fuel`. -/
def insertLoop (k : κ) : (fuel : Nat) → (atRoot : Bool) → Cursor κ ο → Option (Cursor κ ο)
  | 0, _, _ => none
  | fuel + 1, atRoot, s =>
    match s.current with
    | none => none
    | some (leaf _ _ _) => some s
    | some (node c k' l r) =>
      let go := toward k k'
      if c = .black then
        if l.tag = .black ∨ r.tag = .black then
          (s.moveTo s.here).bind fun s => insertLoop k fuel false (s.down go)
        else
          (split atRoot s (node c k' l r) go).bind fun (es, next) =>
            (s.repair es next).bind (insertLoop k fuel false)
      else insertLoop k fuel atRoot (s.down go)

/-- `insert`: the tree afterwards and the value returned. -/
def insert : Root Color κ ο → κ → ο → Option (Root Color κ ο × Int)
  | none, k, o => some (some (leaf .black k o), 0)
  | some t, k, o => do
    let s ← insertLoop k t.height true ⟨[], t, []⟩
    match ← focus s.here s.upper s.above with
    | (leaf c k' o', fs) =>
      if k' = k then return (some s.tree, -1)
      else
        let oldLeaf := leaf .red k' o'
        let newLeaf := leaf .red k o
        let current := if k' < k then node c k oldLeaf newLeaf else node c k' newLeaf oldLeaf
        return (some (plug fs current), 0)
    | (node _ _ _ _, _) => none

/-! ## Deletion -/

/-- The test by which the start of `delete` recognises that the child of
`upper` on side `d` is a leaf: `upper->left->right == NULL` on the left, but
`upper->right->left == NULL` on the right. -/
def nearIsLeaf : Dir → LeafTree Color κ ο → Bool
  | .left, t => rightIsNull t
  | .right, t => leftIsNull t

def redChildren : List (Edit Color) := [.paint [.left] .red, .paint [.right] .red]

/-- The far child is a node, the near one a leaf. -/
def redFar (d : Dir) : List (Edit Color) :=
  [.paint [d.flip, .left] .black, .paint [d.flip, .right] .black, .paint [d.flip] .red]

/-- The outer child of the far child is red. -/
def pullOuter (d : Dir) : List (Edit Color) :=
  [.rotate [] d, .paint [.right] .black, .paint [.left] .black, .paint [d, d] .red]

/-- The inner child of the far child is red. -/
def pullInner (d : Dir) : List (Edit Color) :=
  [.rotate [d.flip] d.flip, .rotate [] d, .paint [.right] .black, .paint [.left] .black,
    .paint [d, d] .red]

/-- Before the loop of `delete`, when both children of the root are black:
the repair that gives `upper` a red child, and the path to the new `upper`.
`d` is the side on which the search goes on. -/
def prepare (d : Dir) (upper : LeafTree Color κ ο) : Option (List (Edit Color) × List Dir) := do
  let near ← upper.child d
  let far ← upper.child d.flip
  if nearIsLeaf d near then
    if rightIsNull far then return (redChildren, []) else return (redFar d, [])
  else if (← near.tagAt [d]) = .red ∨ (← near.tagAt [d.flip]) = .red then
    return ([], [d])
  else if (← far.tagAt [d.flip]) = .red then return (pullOuter d, [d])
  else if (← far.tagAt [d]) = .red then return (pullInner d, [d])
  else return (redChildren, [])

/-- The part of `delete` before the loop, for a root that is not a leaf. -/
def start (k : κ) (t : LeafTree Color κ ο) : Option (Cursor κ ο) := do
  let upper := t.paint .black
  let s : Cursor κ ο := ⟨[], upper, []⟩
  if (← upper.tagAt [.left]) = .black ∧ (← upper.tagAt [.right]) = .black then
    let (es, p) ← prepare (toward k upper.key) upper
    s.repair es p
  else return s

/-- Cases 2.1.1 and 3.1.1. -/
def childEven (d : Dir) : List (Edit Color) :=
  [.rotate [] d, .paint [d] .black, .paint [d, d] .red, .paint [d, d.flip] .red]

/-- Cases 2.1.2 and 3.1.2. -/
def childNear (d : Dir) : List (Edit Color) :=
  [.rotate [d.flip, d] d.flip, .rotate [d.flip] d.flip, .rotate [] d, .paint [d] .black,
    .paint [d.flip, d] .black, .paint [d.flip] .red, .paint [d, d] .red]

/-- Cases 2.1.3 and 3.1.3. -/
def childFar (d : Dir) : List (Edit Color) :=
  [.rotate [d.flip] d.flip, .rotate [] d, .paint [d] .black,
    .paint [d.flip, d] .black, .paint [d.flip] .red, .paint [d, d] .red]

/-- Cases 2.2.1, 2.3.1, 3.2.1 and 3.3.1. -/
def grandchildEven (d : Dir) : List (Edit Color) :=
  [.paint [d] .black, .paint [d, .left] .red, .paint [d, .right] .red]

/-- Cases 2.2.2, 2.3.2, 3.2.2 and 3.3.2. -/
def grandchildFar (d e : Dir) : List (Edit Color) :=
  [.rotate [d] e, .paint [d, .left] .black, .paint [d, .right] .black, .paint [d] .red,
    .paint [d, e, e] .red]

/-- Cases 2.2.3, 2.3.3, 3.2.3 and 3.3.3. -/
def grandchildNear (d e : Dir) : List (Edit Color) :=
  [.rotate [d, e.flip] e.flip, .rotate [d] e, .paint [d, .left] .black, .paint [d, .right] .black,
    .paint [d] .red, .paint [d, e, e] .red]

/-- The repair when `current` is a black node with black children, and the
path to the new `upper`. In the first three cases `current` is a child of
`upper`, whose other child is red; in the last three there is a red node
between them. -/
def borrow (s : Cursor κ ο) (current : LeafTree Color κ ο) :
    Option (List (Edit Color) × List Dir) := do
  let d := toward current.key s.upper.key
  if s.here = [d] then
    let near ← s.upper.tagAt [d.flip, d, d]
    let far ← s.upper.tagAt [d.flip, d, d.flip]
    if near = .black ∧ far = .black then return (childEven d, [d])
    else if near = .red then return (childNear d, [d])
    else return (childFar d, [d])
  else
    let e := if s.here = [d, d] then d else d.flip
    let near ← s.upper.tagAt [d, e.flip, e]
    let far ← s.upper.tagAt [d, e.flip, e.flip]
    if near = .black ∧ far = .black then return (grandchildEven d, [d])
    else if far = .red then return (grandchildFar d e, [d, e])
    else return (grandchildNear d e, [d, e])

/-- The body of the loop of `delete`, after `current` has gone down: a leaf
and a red node are passed, a black node becomes `upper` once it has a red
child. -/
def visit (s : Cursor κ ο) : Option (Cursor κ ο) :=
  match s.current with
  | none => none
  | some (leaf _ _ _) => some s
  | some (node c k' l r) =>
    if c = .red then some s
    else if l.tag = .red ∨ r.tag = .red then s.moveTo s.here
    else (borrow s (node c k' l r)).bind fun (es, p) => s.repair es p

/-- The loop of `delete`. A repair makes `current` red and goes back to its
parent, so two iterations for each node on the path are enough `fuel`. -/
def deleteLoop (k : κ) : (fuel : Nat) → Cursor κ ο → Option (Cursor κ ο)
  | 0, _ => none
  | fuel + 1, s =>
    match s.current with
    | none => none
    | some (leaf _ _ _) => some s
    | some (node _ k' _ _) => (visit (s.down (toward k k'))).bind (deleteLoop k fuel)

/-- The end of `delete`: take the leaf `current`, with the key `k`, out of the
subtree of `upper`. -/
def unlink (k : κ) (s : Cursor κ ο) : Option (LeafTree Color κ ο) :=
  let d := toward k s.upper.key
  if s.here = [d] then
    -- `upper` keeps its colour and takes the rest from its other child
    (s.upper.child d.flip).map (paint s.upper.tag)
  else do
    let tmp ← s.upper.child d
    let rest ← tmp.child (if s.here = [d, d] then d.flip else d)
    s.upper.modify (fun _ => some rest) [d]

/-- `delete`: the tree afterwards and the object returned. -/
def delete : Root Color κ ο → κ → Option (Root Color κ ο × Option ο)
  | none, _ => some (none, none)
  | some (leaf c k' o), k => if k' = k then some (none, some o) else some (some (leaf c k' o), none)
  | some t, k => do
    let s ← start k t
    let s ← deleteLoop k (2 * t.height) s
    match ← s.current with
    | leaf _ k' o =>
      if k' ≠ k then return (some s.tree, none)
      else
        let upper ← unlink k' s
        return (some (plug s.above upper), some o)
    | node _ _ _ _ => none

end CLangProject.TopDown

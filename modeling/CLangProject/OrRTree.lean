import CLangProject.Bubble
import CLangProject.MakeTree

/-!
# The orthogonal range tree of `ch4/or_r_tree.c`

A tree for points in several dimensions. The tree of dimension `dim` is a search
tree for the coordinate `dim`, and every node has a tree of dimension `dim - 1`
for the points below it, `l_dim_tree`. Dimension 0 has the points themselves, in
lists at the leaves.

From dimension 1 on, a leaf with the key `NEGINFTY` comes before all others; no
point is below it, and its `l_dim_tree` is `NULL`.

A function that follows `NULL`, leaves by `exit` or writes past the end of one of
its arrays has no result. The pointer to a tree is an `Option`.
-/

namespace CLangProject.OrRTree

open LeafTree

/-- `point_t`; the coordinates from `DIMENSION` on have no meaning. -/
structure Point (ο : Type) where
  coordinate : Nat → Key
  object : ο

variable {ο : Type}

def negInfty : Key := ⟨-1000, negInfty_mem⟩

/-! ## `sort` -/

/-- A node of the list of keys, with the list of points that `left` refers
to. -/
structure KeyNode (ο : Type) where
  key : Key
  point : Point ο
  next : List (Point ο)

def KeyNode.points (n : KeyNode ο) : List (Point ο) := n.point :: n.next

/-- Deal with duplicate values: the first point of `y` is put behind the first
point of `x`, and with it goes the rest of the list of `x`. -/
def collectEqual (x : KeyNode ο) : List (KeyNode ο) → List (KeyNode ο)
  | [] => [x]
  | y :: list =>
    if x.key = y.key then collectEqual { x with next := y.point :: x.next } list
    else x :: collectEqual y list

/-- `sort`; the number of passes is not more than the square of the length, and
one. -/
def sort (list : List (KeyNode ο)) : Option (List (KeyNode ο)) :=
  match list with
  | [] => some []
  | [x] => some [x]
  | list => do
    match ← Bubble.sort KeyNode.key (list.length * list.length + 1) list with
    | [] => none
    | x :: list => some (collectEqual x list)

/-! ## `build_or_r_tree` -/

/-- The list of key values in dimension `dim`. -/
def keyList (dim : Nat) (ptList : List (Point ο)) : List (KeyNode ο) :=
  ptList.foldl (fun list p => ⟨p.coordinate dim, p, []⟩ :: list) []

/-- The list from which the search tree is made. -/
def entries (dim : Nat) (ptList : List (Point ο)) : Option (List (Key × List (Point ο))) := do
  let list ← sort (keyList dim ptList)
  let list := list.map fun n => (n.key, n.points)
  some (if 1 ≤ dim then (negInfty, []) :: list else list)

/-- Visit all nodes of a tree and set `l_dim_tree`. The nodes still to be visited
are on `node_stack`, which has 100 entries; `sp` of them are used when `t` has
been taken off. The right child is on top of the left one. -/
def visit {τ τ' κ : Type} {α : Type} (f : τ → Option τ') :
    Nat → LeafTree τ κ α → Option (LeafTree τ' κ α)
  | _, leaf c k o => do
    let c ← f c
    some (leaf c k o)
  | sp, node c k l r => do
    let c ← f c
    if sp + 2 ≤ 100 then
      let r ← visit f (sp + 1) r
      let l ← visit f sp l
      some (node c k l r)
    else none

/-- Attach a point to each node on its search path. -/
def attach {α : Type} (dim : Nat) (p : Point ο) :
    LeafTree (List (Point ο)) Key α → LeafTree (List (Point ο)) Key α
  | leaf c k o => leaf (p :: c) k o
  | node c k l r =>
    if p.coordinate dim < k then node (p :: c) k (attach dim p l) r
    else node (p :: c) k l (attach dim p r)

/-- A tree of dimension `dim`: the tags are the pointers `l_dim_tree`. -/
def OrTree (ο : Type) : Nat → Type
  | 0 => LeafTree Unit Key (List (Point ο))
  | dim + 1 => LeafTree (Option (OrTree ο dim)) Key (List (Point ο))

def buildOrRTree : (dim : Nat) → List (Point ο) → Option (Option (OrTree ο dim))
  | _, [] => some none
  | 0, ptList => do
    let oTree ← makeTree (← entries 0 ptList)
    let oTree ← visit (fun _ => some ()) 0 oTree
    some (some oTree)
  | dim + 1, ptList => do
    let oTree ← makeTree (← entries (dim + 1) ptList)
    let oTree ← visit (fun _ => some []) 0 oTree
    let oTree := ptList.foldl (fun t p => attach (dim + 1) p t) oTree
    let oTree ← visit (fun list => buildOrRTree dim list) 0 oTree
    some (some oTree)

/-! ## `find_points` -/

/-- `find_points_1d`: the nodes still to be visited are on `node_stack`, which
has 200 entries here. -/
def findPoints1d {τ : Type} (a b : Key) :
    Nat → LeafTree τ Key (List (Point ο)) → List (Point ο) → Option (List (Point ο))
  | _, leaf _ k points, res =>
    some (if a ≤ k ∧ k < b then points.foldl (fun res p => p :: res) res else res)
  | sp, node _ k l r, res =>
    if b ≤ k then (if sp + 1 ≤ 200 then findPoints1d a b sp l res else none)
    else if k ≤ a then (if sp + 1 ≤ 200 then findPoints1d a b sp r res else none)
    else if sp + 2 ≤ 200 then do
      let res ← findPoints1d a b (sp + 1) r res
      findPoints1d a b sp l res
    else none

/-- `join_list`: `a` is appended to `b`. -/
def joinList (a b : List (Point ο)) : List (Point ο) :=
  match b with
  | [] => a
  | b => b ++ a

section Paths

variable {τ κ α : Type} [LinearOrder κ] (sub : τ → Option (List (Point ο)))

/-- Query the lower-dimensional tree of a node. -/
def select (n : LeafTree τ κ α) (currentList : List (Point ο)) : Option (List (Point ο)) := do
  let newList ← sub n.tag
  some (joinList newList currentList)

/-- Follow the path of the left endpoint. -/
def leftPath (a : κ) : LeafTree τ κ α → List (Point ο) → Option (List (Point ο))
  | leaf c k o, cur => if k = a then select sub (leaf c k o) cur else some cur
  | node _ k l r, cur =>
    if a < k then do
      let cur ← select sub r cur
      leftPath a l cur
    else if a = k then select sub r cur
    else leftPath a r cur

/-- Follow the path of the right endpoint. -/
def rightPath (b : κ) : LeafTree τ κ α → List (Point ο) → Option (List (Point ο))
  | leaf c k o, cur => if k < b then select sub (leaf c k o) cur else some cur
  | node _ k l r, cur =>
    if k < b then do
      let cur ← select sub l cur
      rightPath b r cur
    else if k = b then select sub l cur
    else rightPath b l cur

/-- Look for the node where the paths part. -/
def splitPath (a b : κ) : LeafTree τ κ α → Option (List (Point ο))
  | leaf _ _ _ => some []
  | node _ k l r =>
    if b < k then splitPath a b l
    else if k < a then splitPath a b r
    else if a < k ∧ k < b then do
      let cur ← leftPath sub a l []
      rightPath sub b r cur
    else if a = k then rightPath sub b r []
    else leftPath sub a l []

end Paths

/-- `tree->left == NULL`. -/
def leftIsNull {τ κ : Type} : LeafTree τ κ (List (Point ο)) → Bool
  | leaf _ _ points => points.isEmpty
  | node _ _ _ _ => false

/-- The cases of `find_points` for a tree of dimension 0 and of a higher one. -/
def findPoints (a b : Nat → Key) : (dim : Nat) → Option (OrTree ο dim) → Option (List (Point ο))
  | _, none => none
  | 0, some (tree : LeafTree Unit Key (List (Point ο))) =>
    if leftIsNull tree then none else findPoints1d (a 0) (b 0) 0 tree []
  | dim + 1, some (tree : LeafTree (Option (OrTree ο dim)) Key (List (Point ο))) =>
    if leftIsNull tree then none
    else splitPath (findPoints a b dim) (a (dim + 1)) (b (dim + 1)) tree

/-- Build the tree of a list of points and query it. -/
def query (ptList : List (Point ο)) (a b : Nat → Key) (dim : Nat) : Option (List (Point ο)) := do
  let tree ← buildOrRTree dim ptList
  findPoints a b dim tree

end CLangProject.OrRTree

import CLangProject.Linked
import CLangProject.Pool
import CLangProject.UnionFind

/-!
# Union-find with a bound for the worst case

`wc_u_find.c` keeps at every root the list of its children, their number and the
height of the tree. The field `list` is the head of the list in a root and the
link to the next sibling in a child of a root; in a node farther down it is never
read again. `join` moves the children of one root to the other one or to one of its
children, so that the height grows only when a root gets more children than its
height allows.
-/

namespace CLangProject.WcUFind

open UnionFind (findRoot)

structure Node (ι : Type) where
  height : Nat
  indegree : Nat
  item : ι
  up : Option Nat
  list : Option Nat

abbrev Mem (ι : Type) := Pool (Node ι)

variable {ι : Type}

namespace Mem

def up (m : Mem ι) (a : Nat) : Option Nat := (m.node a).up

def list (m : Mem ι) (a : Nat) : Option Nat := (m.node a).list

def height (m : Mem ι) (a : Nat) : Nat := (m.node a).height

def indegree (m : Mem ι) (a : Nat) : Nat := (m.node a).indegree

def setUp (m : Mem ι) (a : Nat) (p : Option Nat) : Mem ι :=
  Pool.modify m a fun n => { n with up := p }

def setList (m : Mem ι) (a : Nat) (p : Option Nat) : Mem ι :=
  Pool.modify m a fun n => { n with list := p }

def setHeight (m : Mem ι) (a height : Nat) : Mem ι := Pool.modify m a fun n => { n with height }

def setIndegree (m : Mem ι) (a indegree : Nat) : Mem ι :=
  Pool.modify m a fun n => { n with indegree }

end Mem

def ufInsert (m : Mem ι) (item : ι) : Nat × Mem ι :=
  let (newNode, m) := Pool.getNode m
  (newNode, Pool.modify m newNode fun _ => ⟨0, 0, item, none, none⟩)

def sameClass (fuel : Nat) (m : Mem ι) (node1 node2 : Nat) : Option (Bool × Mem ι) := do
  let root1 ← findRoot m.up fuel node1
  let root2 ← findRoot m.up fuel node2
  some (root1 == root2, m)

/-- The nodes on the list point to the first node on the list of `root1`. -/
def hang (root1 : Nat) : (fuel : Nat) → Option Nat → Mem ι → Option (Mem ι)
  | _, none, m => some m
  | 0, some _, _ => none
  | fuel + 1, some tmp, m =>
    let m := m.setUp tmp (m.list root1)
    hang root1 fuel (m.list tmp) m

/-- The nodes on the list from `tmp` on point to `root1`; the result is the
last one of them. -/
def moveList (root1 : Nat) : (fuel tmp : Nat) → Mem ι → Option (Nat × Mem ι)
  | 0, _, _ => none
  | fuel + 1, tmp, m =>
    let m := m.setUp tmp (some root1)
    match m.list tmp with
    | none => some (tmp, m)
    | some tmp => moveList root1 fuel tmp m

/-- `root1` becomes the only child of `root2`. -/
def putBelow (m : Mem ι) (root1 root2 height : Nat) : Mem ι :=
  ((((m.setHeight root2 height).setIndegree root2 1).setList root2 (some root1)).setList
      root1 none).setUp
    root1 (some root2)

/-- Both roots have the same height, at least 2. -/
def joinEqual (fuel : Nat) (m : Mem ι) (root1 root2 : Nat) : Option (Mem ι) := do
  let tmp ← m.list root2
  let (tmp, m) ← moveList root1 fuel tmp m
  let m := m.setList tmp (m.list root1)
  let m := m.setList root1 (m.list root2)
  let m := m.setIndegree root1 (m.indegree root1 + m.indegree root2)
  if m.indegree root1 ≤ m.height root1 then some (m.setUp root2 (m.list root1))
  else
    let m := (m.setUp root1 (some root2)).setList root1 none
    let m := m.setHeight root2 (m.height root2 + 1)
    some ((m.setIndegree root2 1).setList root2 (some root1))

/-- `root1` is the root of greater or the same height. -/
def joinRoots (fuel : Nat) (m : Mem ι) (root1 root2 : Nat) : Option (Mem ι) :=
  if m.height root1 ≥ 2 then
    if m.height root2 < m.height root1 then do
      let m ← hang root1 fuel (m.list root2) m
      some (m.setUp root2 (m.list root1))
    else joinEqual fuel m root1 root2
  else if m.height root1 = 0 then
    some ((((m.setHeight root1 1).setIndegree root1 1).setList root1 (some root2)).setUp
    root2 (some root1))
  else if m.height root2 = 1 then do
    let tmp ← m.list root2
    some (putBelow (m.setUp tmp (some root1)) root1 root2 2)
  else some (putBelow m root1 root2 2)

def join (fuel : Nat) (m : Mem ι) (node1 node2 : Nat) : Option (Mem ι) := do
  let root1 ← findRoot m.up fuel node1
  let root2 ← findRoot m.up fuel node2
  if m.height root1 < m.height root2 then joinRoots fuel m root2 root1
  else joinRoots fuel m root1 root2

def unionFind (ι : Type) : UnionFind (Mem ι) ι where
  insert := ufInsert
  sameClass := sameClass
  join := join

end CLangProject.WcUFind

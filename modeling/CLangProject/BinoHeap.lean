import CLangProject.Pool

/-!
# The binomial heap of `ch5/bino_heap.c`

The code works on nodes in memory, addressed by natural numbers; a pointer is an `Option`, with
`none` for `NULL`. The node `hp` of a heap is the first one of its left path; the heap is empty if
its `height` is -1. A node of the left path, or of any other left path below it, with the subtree
below its `right` is a block of `2 ^ height` elements.

A function has no result if it follows `NULL`, if it writes beyond the end of `node_stack`, or if a
loop exceeds the bound `fuel`.
-/

namespace CLangProject.BinoHeap

abbrev Ptr := Option Nat

structure Node (ο : Type) where
  height : Int
  key : Int
  object : ο
  left : Ptr
  right : Ptr

abbrev Mem (ο : Type) := Pool (Node ο)

variable {ο : Type}

namespace Mem

abbrev getNode (m : Mem ο) : Nat × Mem ο := Pool.getNode m

abbrev returnNode (m : Mem ο) (a : Nat) : Mem ο :=
  Pool.returnNode m (fun p n => { n with left := p }) a

def left (m : Mem ο) (a : Nat) : Ptr := (m.node a).left

def setHeight (m : Mem ο) (a : Nat) (h : Int) : Mem ο :=
  Pool.modify m a fun n => { n with height := h }

def setLeft (m : Mem ο) (a : Nat) (p : Ptr) : Mem ο := Pool.modify m a fun n => { n with left := p }

def setRight (m : Mem ο) (a : Nat) (p : Ptr) : Mem ο :=
  Pool.modify m a fun n => { n with right := p }

/-- Copy all fields of the node `b` into `a`. -/
def copy (m : Mem ο) (a b : Nat) : Mem ο := Pool.modify m a fun _ => m.node b

end Mem

def createHeap (m : Mem ο) : Nat × Mem ο :=
  let (tmpNode, m) := m.getNode
  (tmpNode, Pool.modify m tmpNode fun n => { n with height := -1, left := none, right := none })

def heapEmpty (m : Mem ο) (hp : Nat) : Bool := (m.node hp).height = -1

/-! ## The least key -/

/-- The loop of `find_min_key`. -/
def minKeyFrom (m : Mem ο) : (fuel tmp : Nat) → (tmpKey : Int) → Option Int
  | 0, _, _ => none
  | fuel + 1, tmp, tmpKey =>
    match m.left tmp with
    | none => some tmpKey
    | some tmp =>
      minKeyFrom m fuel tmp (if (m.node tmp).key < tmpKey then (m.node tmp).key else tmpKey)

def findMinKey (fuel : Nat) (m : Mem ο) (hp : Nat) : Option Int :=
  minKeyFrom m fuel hp (m.node hp).key

/-! ## Merging -/

/-- `node_stack[ stack_p++ ] = tmp`, with the top of the stack in front. -/
def push (nodeStack : List Nat) (tmp : Nat) : Option (List Nat) :=
  if nodeStack.length < 100 then some (tmp :: nodeStack) else none

/-- The blocks of both heaps, the higher one first, until one of the lists is empty. -/
def pushBoth (m : Mem ο) : (fuel : Nat) → (tmp1 tmp2 : Ptr) → List Nat →
    Option (Ptr × Ptr × List Nat)
  | 0, _, _, _ => none
  | fuel + 1, some tmp1, some tmp2, nodeStack =>
    if (m.node tmp1).height > (m.node tmp2).height then do
      pushBoth m fuel (m.left tmp1) (some tmp2) (← push nodeStack tmp1)
    else do
      pushBoth m fuel (some tmp1) (m.left tmp2) (← push nodeStack tmp2)
  | _ + 1, tmp1, tmp2, nodeStack => some (tmp1, tmp2, nodeStack)

/-- `push the rest of the other` -/
def pushRest (m : Mem ο) : (fuel : Nat) → (tmp : Ptr) → List Nat → Option (List Nat)
  | 0, _, _ => none
  | _ + 1, none, nodeStack => some nodeStack
  | fuel + 1, some tmp, nodeStack => do pushRest m fuel (m.left tmp) (← push nodeStack tmp)

/-- `put them together, performing addition` -/
def addBlocks (m : Mem ο) (current : Nat) : (nodeStack : List Nat) → Nat × Mem ο
  | [] => (current, m)
  | next :: nodeStack =>
    if (m.node next).height > (m.node current).height then
      addBlocks (m.setLeft next (some current)) next nodeStack
    else if (m.node next).height = (m.node current).height then
      if (m.node next).key < (m.node current).key then
        let m := m.setLeft next (m.node current).left
        let m := m.setLeft current (m.node next).right
        let m := m.setRight next (some current)
        addBlocks (m.setHeight next ((m.node next).height + 1)) next nodeStack
      else
        let m := m.setLeft next (m.node current).right
        let m := m.setRight current (some next)
        addBlocks (m.setHeight current ((m.node current).height + 1)) current nodeStack
    else
      let m := m.setLeft next (m.node current).left
      addBlocks (m.setLeft current (some next)) current nodeStack

def merge (fuel : Nat) (m : Mem ο) (hp1 hp2 : Nat) : Option (Nat × Mem ο) :=
  if (m.node hp1).height = -1 then some (hp2, m.returnNode hp1)
  else if (m.node hp2).height = -1 then some (hp1, m.returnNode hp2)
  else do
    let (tmp1, tmp2, nodeStack) ← pushBoth m fuel (some hp1) (some hp2) []
    let nodeStack ← pushRest m fuel tmp1 nodeStack
    match ← pushRest m fuel tmp2 nodeStack with
    | [] => none
    | current :: nodeStack => some (addBlocks m current nodeStack)

/-- `copy new root back` -/
def copyBack (m : Mem ο) (hp tmp2 : Nat) : Mem ο := (m.copy hp tmp2).returnNode tmp2

/-! ## Deletion and insertion -/

/-- The loop of `delete_min`: `min1` is the node with the least key so far, `min2` the node above
it. -/
def seekMin (m : Mem ο) : (fuel tmp1 : Nat) → (tmpKey : Int) → (min1 min2 : Nat) →
    Option (Nat × Nat)
  | 0, _, _, _, _ => none
  | fuel + 1, tmp2, tmpKey, min1, min2 =>
    match m.left tmp2 with
    | none => some (min1, min2)
    | some tmp1 =>
      if (m.node tmp1).key < tmpKey then seekMin m fuel tmp1 (m.node tmp1).key tmp1 tmp2
      else seekMin m fuel tmp1 tmpKey min1 min2

def deleteMin (fuel : Nat) (m : Mem ο) (hp : Nat) : Option (ο × Mem ο) :=
  if (m.node hp).height = 0 then some ((m.node hp).object, m.setHeight hp (-1))
  else do
    let (min1, min2) ← seekMin m fuel hp (m.node hp).key hp hp
    let delObj := (m.node min1).object
    if min1 ≠ min2 then
      let m := m.setLeft min2 (m.node min1).left
      if (m.node min1).height > 0 then do
        let tmp1 ← (m.node min1).right
        let (tmp2, m) ← merge fuel (m.copy min1 hp) min1 tmp1
        some (delObj, copyBack m hp tmp2)
      else some (delObj, m.returnNode min1)
    else
      match (m.node min1).left with
      | some left => do
        let (tmp2, m) ← merge fuel m left (← (m.node min1).right)
        some (delObj, copyBack m hp tmp2)
      | none => do
        let tmp2 ← (m.node min1).right
        some (delObj, copyBack m hp tmp2)

def insert (newKey : Int) (newObj : ο) (fuel : Nat) (m : Mem ο) (hp : Nat) : Option (Int × Mem ο) :=
  do
  let (newNode, m) := m.getNode
  let m := Pool.modify m newNode fun _ => ⟨0, newKey, newObj, none, none⟩
  let (tmp, m) := Mem.getNode m
  let (tmp2, m) ← merge fuel (Mem.copy m tmp hp) newNode tmp
  some (0, copyBack m hp tmp2)

end CLangProject.BinoHeap

import CLangProject.Pool

/-!
# The Fibonacci heap of `ch5/fibo_heap.c`

The code works on nodes in memory, addressed by natural numbers; a pointer is an
`Option`, with `none` for `NULL`. A function that follows `NULL`, or that uses an
index outside of `rank_class`, has no result.

The elements of a heap form a binary tree. `left` leads to the next node on the
same path, `right` to the topmost node of the path below; the leftmost path
begins at `hp->right`. `hp->left` is the node with the least key and `hp->up` the
end of the leftmost path. A node that has not been allocated has arbitrary
contents, so that a field that is not set when a node is taken into use has an
arbitrary value: `insert` leaves `up` and `r_up` as they are.
-/

namespace CLangProject.FiboHeap

open Function

abbrev Ptr := Option Nat

/-- The deficiency mark of a node. -/
inductive State where
  | complete
  | deficient
  deriving DecidableEq, Repr

structure Node (ο : Type) where
  key : Int
  object : ο
  left : Ptr
  right : Ptr
  up : Ptr
  rUp : Ptr
  rank : Int
  state : State
  deriving DecidableEq, Repr

/-- The memory: the contents of the nodes, the free list, and the first node
that has never been used. -/
abbrev Mem (ο : Type) := Pool (Node ο)

variable {ο : Type}

namespace Mem

/-- Change a node. -/
abbrev modify (m : Mem ο) (a : Nat) (f : Node ο → Node ο) : Mem ο := Pool.modify m a f

abbrev getNode (m : Mem ο) : Nat × Mem ο := Pool.getNode m

def setLeft (m : Mem ο) (a : Nat) (p : Ptr) : Mem ο := Pool.modify m a fun n => { n with left := p }

def setRight (m : Mem ο) (a : Nat) (p : Ptr) : Mem ο :=
  Pool.modify m a fun n => { n with right := p }

def setUp (m : Mem ο) (a : Nat) (p : Ptr) : Mem ο := Pool.modify m a fun n => { n with up := p }

def setRank (m : Mem ο) (a : Nat) (r : Int) : Mem ο := Pool.modify m a fun n => { n with rank := r }

abbrev returnNode (m : Mem ο) (a : Nat) : Mem ο :=
  Pool.returnNode m (fun p n => { n with left := p }) a

end Mem

/-! ## The operations -/

def createHeap (m : Mem ο) : Mem ο × Nat :=
  let (tmp, m) := m.getNode
  (m.setRight tmp none, tmp)

def insert (newKey : Int) (newObj : ο) (m : Mem ο) (hp : Nat) : Option (Mem ο × Nat) := do
  let (n, m) := m.getNode
  let m := m.modify n fun c =>
    { c with right := none, key := newKey, object := newObj, rank := 0, state := .complete }
  match (m.node hp).right with
  | none =>
    let m := m.modify hp fun c => { c with right := some n, left := some n, up := some n }
    some (m.setLeft n none, n)
  | some top =>
    let m := m.setLeft n (some top)
    let m := m.setRight hp (some n)
    let below ← (m.node n).left
    let m := m.setUp below (some n)
    let min ← (m.node hp).left
    some (if (m.node min).key > newKey then m.setLeft hp (some n) else m, n)

def merge (m : Mem ο) (hp1 hp2 : Nat) : Option (Mem ο × Nat) :=
  match (m.node hp1).right, (m.node hp2).right with
  | none, _ => some (m.returnNode hp1, hp2)
  | some _, none => some (m.returnNode hp2, hp1)
  | some _, some top2 => do
    let last ← (m.node hp1).up
    let m := m.setLeft last (some top2)
    let m := m.setUp top2 (m.node hp1).up
    let m := m.setUp hp1 (m.node hp2).up
    let min1 ← (m.node hp1).left
    let min2 ← (m.node hp2).left
    let m := if (m.node min1).key > (m.node min2).key then m.setLeft hp1 (some min2) else m
    some (m.returnNode hp2, hp1)

/-- Unlink `n` from the path below `u`. -/
def unlink (m : Mem ο) (u n : Nat) : Option (Mem ο) :=
  if (m.node u).right = some n then
    let m := m.setRight u (m.node n).left
    match (m.node n).left with
    | some l => some (m.setUp l (some u))
    | none => some m
  else do
    let above ← (m.node n).up
    let m := m.setLeft above (m.node n).left
    match (m.node n).left with
    | some l => some (m.setUp l (m.node n).up)
    | none => some m

/-- The cascading cut of `decrease_key`; `steps` bounds the number of rounds. -/
def cut (hp : Nat) : Nat → Nat → Mem ο → Option (Mem ο)
  | 0, _, _ => none
  | steps + 1, n, m =>
    match (m.node n).rUp with
    | none => some m
    | some u => do
      let m ← unlink m u n
      let m := m.modify n fun c => { c with rUp := none, left := (m.node hp).right }
      let below ← (m.node n).left
      let m := m.setUp below (some n)
      let m := m.setRight hp (some n)
      if (m.node u).rUp = none then some (m.setRank u ((m.node u).rank - 1))
      else if (m.node u).state = .complete then
        some (m.modify u fun c => { c with state := .deficient })
      else
        let rank := if (m.node u).rank ≥ 2 then (m.node u).rank - 2 else 0
        cut hp steps u (m.modify u fun c => { c with rank := rank, state := .complete })

/-- `decrease_key`; a round of the cut makes `r_up` of one node `NULL`. -/
def decreaseKey (newKey : Int) (m : Mem ο) (n hp : Nat) : Option (Mem ο) := do
  let m := m.modify n fun c => { c with key := newKey }
  let min ← (m.node hp).left
  let m := if newKey < (m.node min).key then m.setLeft hp (some n) else m
  cut hp (m.next + 1) n m

/-! ## `delete_min` -/

/-- Unlink the minimum from the leftmost path; the flag says that it was the last
node. -/
def unlinkMin (m : Mem ο) (hp min : Nat) : Option (Mem ο × Bool) :=
  if (m.node hp).right = some min then
    match (m.node min).left, (m.node min).right with
    | some l, _ => some ((m.setRight hp (some l)).setUp l (some hp), false)
    | none, some r =>
      some (((m.setRight hp (some r)).setUp r (some hp)).setRight min none, false)
    | none, none => some (m.setRight hp none, true)
  else do
    let above ← (m.node min).up
    let m := m.setLeft above (m.node min).left
    match (m.node min).left with
    | some l => some (m.setUp l (m.node min).up, false)
    | none => some (m, false)

/-- The end of the path from `tmp` on. -/
def pathEnd (m : Mem ο) : Nat → Nat → Option Nat
  | 0, _ => none
  | steps + 1, tmp =>
    match (m.node tmp).left with
    | none => some tmp
    | some l => pathEnd m steps l

/-- Move the left path of `min->right` to the leftmost path. -/
def moveChildren (m : Mem ο) (hp min : Nat) : Option (Mem ο) :=
  match (m.node min).right with
  | none => some m
  | some r => do
    let tmp ← pathEnd m (m.next + 1) r
    let m := m.setLeft tmp (m.node hp).right
    let l ← (m.node tmp).left
    let m := m.setUp l (some tmp)
    let m := m.setRight hp (some r)
    some (m.setUp r (some hp))

/-- `rank_class`, an array of 100 pointers. -/
abbrev Classes := Nat → Ptr

/-- Put the block of `tmp2` below the one of `tmp`, which has the same rank. -/
def addBlock (m : Mem ο) (tmp tmp2 : Nat) : Mem ο :=
  let m := m.setLeft tmp2 (m.node tmp).right
  let m := m.setRight tmp (some tmp2)
  m.setRank tmp ((m.node tmp).rank + 1)

/-- Unbuild the leftmost path and collect nodes of equal rank. A round stores a
block or adds two blocks; `steps` bounds the number of rounds. -/
def unbuild (hp : Nat) : Nat → Ptr → Mem ο → Classes → Option (Mem ο × Classes)
  | _, none, m, rankClass => some (m, rankClass)
  | 0, some _, _, _ => none
  | steps + 1, some tmp, m, rankClass =>
    if 0 ≤ (m.node tmp).rank ∧ (m.node tmp).rank < 100 then
      let i := (m.node tmp).rank.toNat
      match rankClass i with
      | none =>
        let rankClass := update rankClass i (some tmp)
        match (m.node hp).right with
        | none => unbuild hp steps none m rankClass
        | some t => unbuild hp steps (some t) (m.setRight hp (m.node t).left) rankClass
      | some tmp2 =>
        let rankClass := update rankClass i none
        if (m.node tmp).key < (m.node tmp2).key then
          unbuild hp steps (some tmp) (addBlock m tmp tmp2) rankClass
        else unbuild hp steps (some tmp2) (addBlock m tmp2 tmp) rankClass
    else none

/-- Put a block on top of the leftmost path. -/
def putBlock (hp : Nat) (m : Mem ο) : Ptr → Mem ο
  | none => m
  | some tmp => (m.setLeft tmp (m.node hp).right).setRight hp (some tmp)

def rebuild (hp : Nat) (m : Mem ο) (rankClass : Classes) : Mem ο :=
  (List.range 100).foldl (fun m i => putBlock hp m (rankClass i)) (m.setRight hp none)

/-- New `up` pointers along the leftmost path, and the new pointer to the
minimum. -/
def relink (hp : Nat) : Nat → Nat → Int → Mem ο → Option (Mem ο)
  | 0, _, _, _ => none
  | steps + 1, tmp, tmpMin, m =>
    match (m.node tmp).left with
    | none => some (m.setUp hp (some tmp))
    | some l =>
      let m := m.setUp l (some tmp)
      if (m.node l).key < tmpMin then relink hp steps l (m.node l).key (m.setLeft hp (some l))
      else relink hp steps l tmpMin m

/-- The clean-up phase. -/
def cleanUp (m : Mem ο) (hp : Nat) : Option (Mem ο) := do
  let tmp ← (m.node hp).right
  let m := m.setRight hp (m.node tmp).left
  let (m, rankClass) ← unbuild hp (3 * m.next + 3) (some tmp) m fun _ => none
  let m := rebuild hp m rankClass
  let top ← (m.node hp).right
  let m := m.setLeft hp (some top)
  relink hp (m.next + 1) top (m.node top).key m

def deleteMin (m : Mem ο) (hp : Nat) : Option (Mem ο × Option ο) :=
  match (m.node hp).right with
  | none => some (m, none)
  | some _ => do
    let min ← (m.node hp).left
    let delObj := (m.node min).object
    let (m, last) ← unlinkMin m hp min
    if last then some (m.returnNode min, some delObj)
    else do
      let m ← moveChildren m hp min
      let m ← cleanUp (m.returnNode min) hp
      some (m, some delObj)

end CLangProject.FiboHeap

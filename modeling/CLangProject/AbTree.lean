import Mathlib

/-!
# (2,4)-trees: the program

`a_b_tree.c` keeps up to four keys and four pointers in a node. In a node of
height 0 the pointers are objects, above they are nodes, and then `key[0]` is
not used. The tree is changed in place and its root keeps its address; here a
node is a value, and the nodes on `node_stack` with the indices at which the
descent left them (`Frame`) say where a changed node belongs.

An access outside of an array and the use of an object as a node have no
result. `get_node` returns a node with arbitrary contents, which is the
argument `fresh` throughout.

The loop that shifts the lower half of a full node tests `key[i]` before
`i >= start`. With `i = -1` this reads `key[-1]`, the field `height`, whose
value then does not matter.
-/

namespace CLangProject.AbTree

open Function

abbrev A : Nat := 2
abbrev B : Nat := 4

/-- The length of `node_stack` and `index_stack`. -/
def nodeStack : Nat := 20

variable {κ ν ο α : Type}

/-! ## Arrays and nodes -/

def read (a : Nat → α) (i : Nat) : Option α := if i < B then some (a i) else none

def write (a : Nat → α) (i : Nat) (x : α) : Option (Nat → α) :=
  if i < B then some (update a i x) else none

/-- The fields of `tree_node_t`. -/
structure Block (κ ν : Type) where
  degree : Nat
  height : Nat
  key : Nat → κ
  next : Nat → ν

namespace Block

def setKey (t : Block κ ν) (i : Nat) (k : κ) : Option (Block κ ν) :=
  (write t.key i k).map fun key => { t with key }

def setNext (t : Block κ ν) (i : Nat) (p : ν) : Option (Block κ ν) :=
  (write t.next i p).map fun next => { t with next }

def put (t : Block κ ν) (i : Nat) (k : κ) (p : ν) : Option (Block κ ν) := do
  let t ← t.setKey i k
  t.setNext i p

/-- Entry `i` of `src` becomes entry `j` of `t`. -/
def copy (t : Block κ ν) (j : Nat) (src : Block κ ν) (i : Nat) : Option (Block κ ν) := do
  t.put j (← read src.key i) (← read src.next i)

/-- `for ( ; i < n; i++ )` with `rest` rounds to go. -/
def copyEntries (src : Block κ ν) : (rest i : Nat) → Block κ ν → Option (Block κ ν)
  | 0, _, t => some t
  | rest + 1, i, t => do copyEntries src rest (i + 1) (← t.copy i src i)

/-- The entries after `i` move down by one. -/
def closeGap : (rest i : Nat) → Block κ ν → Option (Block κ ν)
  | 0, _, t => some t
  | rest + 1, i, t => do closeGap rest (i + 1) (← t.copy i t (i + 1))

/-- `start` in `insert`: in an inner node entry 0 has no key. -/
def start (t : Block κ ν) : Nat := if t.height > 0 then 1 else 0

variable [LinearOrder κ]

/-- The binary search among the keys, with a bound on the number of rounds. -/
def narrow (key : Nat → κ) (q : κ) : (rounds lower upper : Nat) → Option Nat
  | 0, lower, upper => if upper > lower + 1 then none else some lower
  | rounds + 1, lower, upper =>
    if upper > lower + 1 then do
      if q < (← read key ((upper + lower) / 2)) then narrow key q rounds lower ((upper + lower) / 2)
      else narrow key q rounds ((upper + lower) / 2) upper
    else some lower

def lower (t : Block κ ν) (q : κ) : Option Nat := narrow t.key q t.degree 0 t.degree

/-! ## The loops of `insert` -/

/-- Everything above the new key moves up, from entry `i - 1` on downwards. -/
def makeGap (start : Nat) (k : κ) : (i : Nat) → Block κ ν → Option (Nat × Block κ ν)
  | 0, t => some (0, t)
  | i + 1, t =>
    if start < i + 1 then do
      if k < (← read t.key i) then makeGap start k i (← t.copy (i + 1) t i)
      else some (i + 1, t)
    else some (i + 1, t)

/-- Insertion in a node that still has room. -/
def addEntry (t : Block κ ν) (k : κ) (p : ν) : Option (Block κ ν) := do
  let (i, t) ← makeGap t.start k t.degree t
  let t ← t.put i k p
  some { t with degree := t.degree + 1 }

/-- The upper half of a full node, with the new entry if it belongs there, goes
to `new`. The arguments are `j + 1`, `i + 1` and `insert_done`. -/
def fillUpper (t : Block κ ν) (k : κ) (p : ν) :
    (j i : Nat) → Bool → Block κ ν → Option (Nat × Bool × Block κ ν)
  | 0, i, done, new => some (i, done, new)
  | _ + 1, 0, _, _ => none
  | j + 1, i + 1, done, new => do
    if done || k < (← read t.key i) then fillUpper t k p j i done (← new.copy j t i)
    else fillUpper t k p j (i + 1) true (← new.put j k p)

/-- The new entry goes to the lower half. The first argument is `i + 1`. -/
def fillLower (start : Nat) (k : κ) (p : ν) : (i : Nat) → Block κ ν → Option (Block κ ν)
  | 0, t => t.put 0 k p
  | i + 1, t => do
    if k < (← read t.key i) ∧ start ≤ i then fillLower start k p i (← t.copy (i + 1) t i)
    else t.put (i + 1) k p

/-- A full node is split in the node itself and a new one. -/
def split (t fresh : Block κ ν) (k : κ) (p : ν) : Option (Block κ ν × Block κ ν) := do
  let (i, done, new) ← fillUpper t k p ((B - 1) / 2 + 1) B false fresh
  let t ← if done then some t else fillLower t.start k p i t
  some ({ t with degree := B + 1 - (B + 1) / 2 },
    { new with degree := (B + 1) / 2, height := t.height })

/-! ## The parts of `delete` -/

/-- The loop that looks for the key in a leaf. -/
def position (t : Block κ ν) (k : κ) : (rest i : Nat) → Option Nat
  | 0, i => some i
  | rest + 1, i => do if (← read t.key i) = k then some i else position t k rest (i + 1)

def removeAt (t : Block κ ν) (i : Nat) : Option (Block κ ν) :=
  closeGap (t.degree - 1 - i) i { t with degree := t.degree - 1 }

end Block

/-! ## Trees -/

/-- A pointer in `next`: an object, possibly NULL, or a node. -/
inductive Cell (κ ο : Type) where
  | object (o : Option ο)
  | node (degree height : Nat) (key : Nat → κ) (next : Nat → Cell κ ο)

namespace Cell

def block : Cell κ ο → Option (Block κ (Cell κ ο))
  | object _ => none
  | node degree height key next => some ⟨degree, height, key, next⟩

def asObject : Cell κ ο → Option (Option ο)
  | object o => some o
  | node .. => none

end Cell

abbrev Node (κ ο : Type) := Block κ (Cell κ ο)

namespace Block

def cell (t : Node κ ο) : Cell κ ο := .node t.degree t.height t.key t.next

/-- `next[i]`, used as a node. -/
def child (t : Node κ ο) (i : Nat) : Option (Node κ ο) := do (← read t.next i).block

end Block

/-- A node on `node_stack`, and the index of the child that was taken. -/
structure Frame (κ ο : Type) where
  block : Node κ ο
  index : Nat

def Frame.fill (f : Frame κ ο) (t : Node κ ο) : Node κ ο :=
  { f.block with next := update f.block.next f.index t.cell }

/-- The whole tree, given the node at the end of the path. -/
def plug (t : Node κ ο) : List (Frame κ ο) → Node κ ο
  | [] => t
  | f :: path => plug (f.fill t) path

def createTree (fresh : Node κ ο) : Node κ ο := { fresh with height := 0, degree := 0 }

/-- The root has been split: its entries move to a new node, and it becomes
the parent of the two halves. -/
def growRoot (fresh t : Node κ ο) (k : κ) (new : Node κ ο) : Option (Node κ ο) := do
  let low ← Block.copyEntries t t.degree 0 fresh
  let t ← t.setNext 0 (Block.cell { low with height := t.height, degree := t.degree })
  let t ← t.put 1 k new.cell
  some { t with height := t.height + 1, degree := 2 }

/-! ## Underfull nodes

Each of the four repairs gets the parent `upper`, the index `curr` of the
underfull node `t` and its neighbour, and returns the parent after the repair. -/

/-- The key under which the first entry of a node is added behind others: in an
inner node it is the separator `s` between the two nodes. -/
def joint (height : Nat) (s k : κ) : κ := if height > 0 then s else k

/-- A new last entry. -/
def push (t : Node κ ο) (k : κ) (p : Cell κ ο) : Option (Node κ ο) := do
  let t ← t.put t.degree k p
  some { t with degree := t.degree + 1 }

/-- The first entry is given away; `key[0]` is only kept up in a leaf. -/
def popFront (t : Node κ ο) (height : Nat) : Option (Node κ ο) := do
  let t' ← t.put 0 (joint height (← read t.key 0) (← read t.key 1)) (← read t.next 1)
  let t' ← Block.closeGap (t.degree - 2) 1 t'
  some { t' with degree := t.degree - 1 }

/-- The first entry of the right neighbour moves over. -/
def shareRight (upper t neighbor : Node κ ο) (curr : Nat) : Option (Node κ ο) := do
  let k := joint t.height (← read upper.key (curr + 1)) (← read neighbor.key 0)
  let t ← push t k (← read neighbor.next 0)
  let s ← read neighbor.key 1
  let neighbor ← popFront neighbor t.height
  let upper ← upper.setNext curr t.cell
  upper.put (curr + 1) s neighbor.cell

/-- Entries `1, 2, …` of `src` are added behind entry `i` of `t`. -/
def appendEntries (src : Node κ ο) : (rest j i : Nat) → Node κ ο → Option (Node κ ο)
  | 0, _, i, t => some { t with degree := i + 1 }
  | rest + 1, j, i, t => do appendEntries src rest (j + 1) (i + 1) (← t.copy (i + 1) src j)

/-- All entries of `src` are added to `t`. -/
def absorb (t src : Node κ ο) (height : Nat) (s : κ) : Option (Node κ ο) := do
  let t' ← t.put t.degree (joint height s (← read src.key 0)) (← read src.next 0)
  appendEntries src (src.degree - 1) 1 t.degree t'

/-- The right neighbour is joined to `t`. -/
def joinRight (upper t neighbor : Node κ ο) (curr : Nat) : Option (Node κ ο) := do
  let t ← absorb t neighbor t.height (← read upper.key (curr + 1))
  let upper ← upper.setNext curr t.cell
  upper.removeAt (curr + 1)

/-- `for ( j = current->degree; j > 1; j-- )`: the entries from 1 on move up. -/
def shiftUp : (j : Nat) → Node κ ο → Option (Node κ ο)
  | j + 2, t => do shiftUp (j + 1) (← t.copy (j + 2) t (j + 1))
  | _, t => some t

/-- A new first entry; what was the first one gets the key `s` in an inner
node. -/
def pushFront (t : Node κ ο) (s k : κ) (p : Cell κ ο) : Option (Node κ ο) := do
  let t' ← shiftUp t.degree t
  let t' ← t'.put 1 (joint t.height s (← read t'.key 0)) (← read t'.next 0)
  let t' ← t'.put 0 (joint t.height (← read t'.key 0) k) p
  some { t' with degree := t.degree + 1 }

/-- The last entry of the left neighbour moves over. -/
def shareLeft (upper t neighbor : Node κ ο) (curr : Nat) : Option (Node κ ο) := do
  let last ← read neighbor.key (neighbor.degree - 1)
  let t ← pushFront t (← read upper.key curr) last (← read neighbor.next (neighbor.degree - 1))
  let upper ← upper.setNext (curr - 1) (Block.cell { neighbor with degree := neighbor.degree - 1 })
  upper.put curr last t.cell

/-- `t`, the last child, is joined to its left neighbour. -/
def joinLeft (upper t neighbor : Node κ ο) (curr : Nat) : Option (Node κ ο) := do
  let neighbor ← absorb neighbor t t.height (← read upper.key curr)
  let upper ← upper.setNext (curr - 1) neighbor.cell
  some { upper with degree := upper.degree - 1 }

/-- The root has one child left and takes over its contents. -/
def shrinkRoot (t : Node κ ο) : Option (Node κ ο) := do
  let tmp ← t.child 0
  let t ← Block.copyEntries tmp tmp.degree 0 t
  some { t with degree := tmp.degree, height := tmp.height }

/-- The loop of `delete`, from the leaf upwards. -/
def deleteUp : Node κ ο → List (Frame κ ο) → Option (Node κ ο)
  | t, [] => if A ≤ t.degree then some t else if 2 ≤ t.degree then some t
      else if t.height = 0 then some t else shrinkRoot t
  | t, f :: path =>
    if A ≤ t.degree then some (plug t (f :: path))
    else if f.index < f.block.degree - 1 then
      (f.block.child (f.index + 1)).bind fun neighbor =>
        if A < neighbor.degree then
          (shareRight f.block t neighbor f.index).map fun upper => plug upper path
        else (joinRight f.block t neighbor f.index).bind fun upper => deleteUp upper path
    else if f.index = 0 then none
    else
      (f.block.child (f.index - 1)).bind fun neighbor =>
        if A < neighbor.degree then
          (shareLeft f.block t neighbor f.index).map fun upper => plug upper path
        else (joinLeft f.block t neighbor f.index).bind fun upper => deleteUp upper path

/-! ## The calls -/

variable [LinearOrder κ]

/-- The entry at which the search in a block of height 0 ends. -/
def findEntry (t : Node κ ο) (q : κ) (lower : Nat) : Option (Option ο) := do
  if (← read t.key lower) = q then (← read t.next lower).asObject else some none

/-- `find`, from `current_node` on. -/
def findFrom (q : κ) : Cell κ ο → Option (Option ο)
  | .object _ => none
  | .node degree height key next =>
    (Block.lower ⟨degree, height, key, next⟩ q).bind fun lower =>
      if height > 0 then if lower < B then findFrom q (next lower) else none
      else findEntry ⟨degree, height, key, next⟩ q lower

def find (t : Node κ ο) (q : κ) : Option (Option ο) := findFrom q t.cell

/-- The descent of `insert` and `delete` to a block of height 0. -/
def descend (k : κ) : Cell κ ο → List (Frame κ ο) → Option (Node κ ο × List (Frame κ ο))
  | .object _, _ => none
  | .node degree height key next, path =>
    if height > 0 then
      (Block.lower ⟨degree, height, key, next⟩ k).bind fun lower =>
        if lower < B then descend k (next lower) (⟨⟨degree, height, key, next⟩, lower⟩ :: path)
        else none
    else some (⟨degree, height, key, next⟩, path)

/-- The descent has no result when the stacks are too short for its path. -/
def descendStack (k : κ) (t : Node κ ο) : Option (Node κ ο × List (Frame κ ο)) := do
  let (t, path) ← descend k t.cell []
  if path.length ≤ nodeStack then some (t, path) else none

/-- The loop of `insert`, from the leaf upwards. -/
def insertUp (fresh : Node κ ο) : Node κ ο → κ → Cell κ ο → List (Frame κ ο) → Option (Node κ ο)
  | t, k, p, path =>
    if t.degree < B then (t.addEntry k p).map fun t => plug t path
    else
      (t.split fresh k p).bind fun (t, new) => (read new.key 0).bind fun k =>
        match path with
        | f :: path => insertUp fresh (f.fill t) k new.cell path
        | [] => growRoot fresh t k new

def insert (fresh t : Node κ ο) (k : κ) (o : ο) : Option (Node κ ο × Int) :=
  if t.height = 0 ∧ t.degree = 0 then do
    let t ← t.put 0 k (.object (some o))
    some ({ t with degree := 1 }, 0)
  else do
    let (leaf, path) ← descendStack k t
    (insertUp fresh leaf k (.object (some o)) path).map fun t => (t, 0)

/-- `delete` of a key that is entry `i` of the leaf. -/
def deleteAt (leaf : Node κ ο) (path : List (Frame κ ο)) (i : Nat) :
    Option (Node κ ο × Option ο) := do
  let o ← (← read leaf.next i).asObject
  let leaf ← leaf.removeAt i
  (deleteUp leaf path).map fun t => (t, o)

def delete (t : Node κ ο) (k : κ) : Option (Node κ ο × Option ο) := do
  let (leaf, path) ← descendStack k t
  let i ← leaf.position k leaf.degree 0
  if i = leaf.degree then some (t, none) else deleteAt leaf path i

end CLangProject.AbTree

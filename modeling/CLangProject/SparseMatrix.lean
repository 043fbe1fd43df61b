import CLangProject.Cells
import CLangProject.Doubly

/-!
# Sparse matrices

`sparse_matrix.c` keeps a cell of the matrix in a node that hangs in two lists: the cells of its
row, linked by `nextcol` and `prevcol`, and those of its column, linked by `nextrow` and
`prevrow`. The lists start at header nodes, which stand in the row and in the column -1,
and so the headers are themselves linked in two lists, from the node at (-1, -1) on.

The source has each of its functions twice, for the rows and for the columns. Here an `Axis`
says along which links a function goes and which of the two numbers it compares.

`Object_T` is a pointer, NULL in the headers. A function has no result if it follows NULL,
if a `Require` fails, if a loop exceeds its bound `fuel`, or if there is no memory: the calls
are looked at when the allocation succeeds, and so the `CATCH` of `Matrix_put` is left out.
The last thing that `Matrix_put` and `Matrix_clear` do with a node that is no longer needed is
to pass the address of their own variable to `__free_matrix_node`; the result says of which one.
-/

namespace CLangProject.SparseMatrix

open Function

/-! ## Nodes -/

/-- The links `nextrow` and `prevrow`, or `nextcol` and `prevcol`. -/
inductive Axis where
  | row | col
deriving DecidableEq

def Axis.other : Axis → Axis
  | .row => .col
  | .col => .row

@[simp] theorem Axis.other_other (d : Axis) : d.other.other = d := by cases d <;> rfl

theorem Axis.ne_other (d : Axis) : d ≠ d.other := by cases d <;> decide

theorem Axis.eq_or_eq_other (d e : Axis) :
    e = d ∨ e = d.other := by cases d <;> cases e <;> simp [Axis.other]

structure Node (ο : Type) where
  row : Int
  column : Int
  datapointer : Option ο
  nextrow : Option Nat
  prevrow : Option Nat
  nextcol : Option Nat
  prevcol : Option Nat

variable {ο σ : Type}

namespace Node

def key : Axis → Node ο → Int
  | .row, n => n.row
  | .col, n => n.column

def next : Axis → Node ο → Option Nat
  | .row, n => n.nextrow
  | .col, n => n.nextcol

def prev : Axis → Node ο → Option Nat
  | .row, n => n.prevrow
  | .col, n => n.prevcol

def setNext (p : Option Nat) : Axis → Node ο → Node ο
  | .row, n => { n with nextrow := p }
  | .col, n => { n with nextcol := p }

def setPrev (p : Option Nat) : Axis → Node ο → Node ο
  | .row, n => { n with prevrow := p }
  | .col, n => { n with prevcol := p }

section

variable (n : Node ο) (p : Option Nat) (d e : Axis)

@[simp] theorem setNext_key : (n.setNext p d).key e = n.key e := by cases d <;> cases e <;> rfl

@[simp] theorem setNext_prev : (n.setNext p d).prev e = n.prev e := by cases d <;> cases e <;> rfl

@[simp] theorem setNext_datapointer : (n.setNext p d).datapointer = n.datapointer := by
  cases d <;> rfl

@[simp] theorem setPrev_key : (n.setPrev p d).key e = n.key e := by cases d <;> cases e <;> rfl

@[simp] theorem setPrev_next : (n.setPrev p d).next e = n.next e := by cases d <;> cases e <;> rfl

@[simp] theorem setPrev_datapointer : (n.setPrev p d).datapointer = n.datapointer := by
  cases d <;> rfl

theorem setNext_next : (n.setNext p d).next e = if e = d then p else n.next e := by
  cases d <;> cases e <;> rfl

theorem setPrev_prev : (n.setPrev p d).prev e = if e = d then p else n.prev e := by
  cases d <;> cases e <;> rfl

end

end Node

section Access

variable (d : Axis) (m : Cells (Node ο)) (a : Nat)

def getKey : Option Int := (m a).map (Node.key d)

def getData : Option (Option ο) := (m a).map Node.datapointer

def getNext : Option (Option Nat) := (m a).map (Node.next d)

def getPrev : Option (Option Nat) := (m a).map (Node.prev d)

def setNext (p : Option Nat) : Option (Cells (Node ο)) := m.modify a (Node.setNext p d)

def setPrev (p : Option Nat) : Option (Cells (Node ο)) := m.modify a (Node.setPrev p d)

def setData (v : Option ο) : Option (Cells (Node ο)) :=
  m.modify a fun n => { n with datapointer := v }

/-- `if (p != NULL) PREV(p) = q` -/
def setPrevOf : (p q : Option Nat) → Option (Cells (Node ο))
  | none, _ => some m
  | some a, q => setPrev d m a q

end Access

/-! ## Allocation -/

/-- An allocator with its state. It hands out addresses that are not in use. -/
structure Allocator (σ : Type) where
  new : σ → Option (Nat × σ)
  live : σ → Set Nat
  new_notMem : ∀ {s a s'}, new s = some (a, s') → a ∉ live s
  live_new : ∀ {s a s'}, new s = some (a, s') → live s' = insert a (live s)

structure State (σ ο : Type) where
  alloc : σ
  nodes : Cells (Node ο)

def allocateMatrixNode (A : Allocator σ) (st : State σ ο) (row col : Int) (data : Option ο) :
    Option (Nat × State σ ο) := do
  let (matrix, s) ← A.new st.alloc
  let m ← st.nodes.alloc matrix ⟨row, col, data, none, none, none, none⟩
  some (matrix, ⟨s, m⟩)

/-! ## Headers -/

/-- The last node of the list with a number up to `k`. -/
def getPrevious (d : Axis) (m : Cells (Node ο)) (k : Int) : (fuel node : Nat) → Option (Option Nat)
  | 0, _ => none
  | fuel + 1, node => do
    if (← getKey d m node) ≤ k then
      match ← getNext d m node with
      | some next => getPrevious d m k fuel next
      | none => some (some node)
    else getPrev d m node

def getPreviousColumn (m : Cells (Node ο)) (col : Int) : (fuel node : Nat) → Option (Option Nat) :=
  getPrevious .col m col

def getPreviousRow (m : Cells (Node ο)) (row : Int) : (fuel node : Nat) → Option (Option Nat) :=
  getPrevious .row m row

/-- `node` is linked behind `before`. -/
def linkBehind (d : Axis) (m : Cells (Node ο)) (node before : Nat) : Option (Cells (Node ο)) := do
  let m ← setNext d m node (← getNext d m before)
  let m ← setPrevOf d m (← getNext d m node) (some node)
  let m ← setPrev d m node (some before)
  setNext d m before (some node)

inductive OperType where
  | createHeader | findHeader
deriving DecidableEq

/-- The row and the column of the header `k`. -/
def Axis.header (k : Int) : Axis → Int × Int
  | .row => (k, -1)
  | .col => (-1, k)

/-- The state, the header and the value returned, which is `missing` if there is no header. -/
def findHead (A : Allocator σ) (d : Axis) (missing : Bool) (headerOper : OperType) (fuel : Nat)
    (st : State σ ο) (matrix : Nat) (k : Int) : Option (State σ ο × Option Nat × Bool) := do
  let header ← (← getPrevious d st.nodes k fuel matrix)
  if (← getKey d st.nodes header) = k then some (st, some header, true)
  else
    match headerOper with
    | .findHeader => some (st, none, missing)
    | .createHeader =>
      let (newhead, st) ← allocateMatrixNode A st (d.header k).1 (d.header k).2 none
      let m ← linkBehind d st.nodes newhead header
      some ({ st with nodes := m }, some newhead, true)

def findColHead (A : Allocator σ) : (headerOper : OperType) → (fuel : Nat) → State σ ο →
    (matrix : Nat) → (col : Int) → Option (State σ ο × Option Nat × Bool) :=
  findHead A .col false

/-- The value returned for a header that is missing is `ERROR`, and this is not 0. -/
def findRowHead (A : Allocator σ) : (headerOper : OperType) → (fuel : Nat) → State σ ο →
    (matrix : Nat) → (row : Int) → Option (State σ ο × Option Nat × Bool) :=
  findHead A .row true

/-! ## Calls -/

/-- The variables whose addresses are passed to `__free_matrix_node`. -/
inductive Local where
  | newnode | element
deriving DecidableEq

def new (A : Allocator σ) (st : State σ ο) : Option (Nat × State σ ο) :=
  allocateMatrixNode A st (-1) (-1) none

def put (A : Allocator σ) (fuel : Nat) (st : State σ ο) (matrix : Nat) (row col : Int)
    (value : Option ο) :
    Option (State σ ο × Option Local) :=
  if row < 0 ∨ col < 0 then none
  else do
    let (newnode, st) ← allocateMatrixNode A st row col value
    let (st, colheader, _) ← findColHead A .createHeader fuel st matrix col
    let (st, rowheader, _) ← findRowHead A .createHeader fuel st matrix row
    let colprev ← (← getPreviousColumn st.nodes col fuel (← rowheader))
    if (← getKey .col st.nodes colprev) = col then
      let m ← setData st.nodes colprev value
      some ({ st with nodes := m }, some .newnode)
    else
      let m ← linkBehind .col st.nodes newnode colprev
      let rowprev ← (← getPreviousRow m row fuel (← colheader))
      let m ← linkBehind .row m newnode rowprev
      some ({ st with nodes := m }, none)

/-- `none` if the call returns false. -/
def get (A : Allocator σ) (fuel : Nat) (st : State σ ο) (matrix : Nat) (row col : Int) :
    Option (Option (Option ο)) :=
  if row < 0 ∨ col < 0 then none
  else do
    let (st, colheader, found) ← findColHead A .findHeader fuel st matrix col
    if !found then some none
    else
      let rowprev ← (← getPreviousRow st.nodes row fuel (← colheader))
      if (← getKey .row st.nodes rowprev) ≠ row then some none
      else some (some (← getData st.nodes rowprev))

/-- The test of `NEXTROW(element)` is the wrong way round in the source, and kept so. -/
def unlinkRow (m : Cells (Node ο)) (element : Nat) : Option (Cells (Node ο)) := do
  let m ← setNext .row m (← (← getPrev .row m element)) (← getNext .row m element)
  if (← getNext .row m element) = none then
    setPrev .row m (← (← getNext .row m element)) (← getPrev .row m element)
  else some m

def unlinkCol (m : Cells (Node ο)) (element : Nat) : Option (Cells (Node ο)) := do
  let m ← setNext .col m (← (← getPrev .col m element)) (← getNext .col m element)
  setPrevOf .col m (← getNext .col m element) (← getPrev .col m element)

/-- The state, the variable that is released and the value returned. -/
def clear (A : Allocator σ) (fuel : Nat) (st : State σ ο) (matrix : Nat) (row col : Int) :
    Option (State σ ο × Option Local × Bool) :=
  if row < 0 ∨ col < 0 then none
  else do
    let (st, colheader, found) ← findColHead A .findHeader fuel st matrix col
    if !found then some (st, none, false)
    else
      let element ← (← getPreviousRow st.nodes row fuel (← colheader))
      if (← getKey .row st.nodes element) ≠ row then some (st, none, false)
      else
        let m ← unlinkRow st.nodes element
        let m ← unlinkCol m element
        some ({ st with nodes := m }, some .element, true)

end CLangProject.SparseMatrix

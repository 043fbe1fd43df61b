import CLangProject.Dictionary
import CLangProject.Linked
import CLangProject.Pool
import CLangProject.Trie

/-!
# Tries with lists of siblings

`li_n_trie.c` keeps the children of a node on a list: `next` points to the first
child and `list` to the next sibling. The end of a string is a child with the
character 0, whose `next` is the object. The root is the first node on the list of
the nodes for the first character; its own character is 0 and its `next` is NULL.

The memory holds a tree of such lists. The proofs follow the recursion over that tree: along
a list with `list`, and down to the next one with `next`.
-/

namespace CLangProject.LiNTrie

open Function

/-- What `next` points to. -/
inductive Ref (ο : Type) where
  | node (a : Nat)
  | object (o : ο)
  deriving DecidableEq

structure Node (ο : Type) where
  thisChar : Fin 256
  next : Option (Ref ο)
  list : Option Nat

abbrev Mem (ο : Type) := Pool (Node ο)

/-- A character inside of a string. -/
abbrev Sym := { c : Fin 256 // c ≠ 0 }

variable {ο : Type}

namespace Mem

def thisChar (m : Mem ο) (a : Nat) : Fin 256 := (m.node a).thisChar

def next (m : Mem ο) (a : Nat) : Option (Ref ο) := (m.node a).next

def list (m : Mem ο) (a : Nat) : Option Nat := (m.node a).list

def setNext (m : Mem ο) (a : Nat) (p : Option (Ref ο)) : Mem ο :=
  Pool.modify m a fun n => { n with next := p }

def setList (m : Mem ο) (a : Nat) (p : Option Nat) : Mem ο :=
  Pool.modify m a fun n => { n with list := p }

/-- `node->list = NULL; node->this_char = c` -/
def start (m : Mem ο) (a : Nat) (c : Fin 256) : Mem ο :=
  Pool.modify m a fun n => { n with list := none, thisChar := c }

def returnNode (m : Mem ο) (a : Nat) : Mem ο :=
  Pool.returnNode m (fun p n => { n with next := p.map .node }) a

end Mem

/-- A trie, in the memory where it lives. -/
structure Trie (ο : Type) where
  root : Nat
  mem : Mem ο

def createTrie (m : Mem ο) : Trie ο :=
  let (tmpNode, m) := Pool.getNode m
  ⟨tmpNode, (Mem.setNext m tmpNode none).start tmpNode 0⟩

/-- The character at the current position; 0 at the end of the string. -/
def current : List Sym → Fin 256
  | [] => 0
  | c :: _ => c

/-! ## Calls

Loops along a list have the bound `fuel`. A call has no result if a loop exceeds it, if
NULL is followed, or if a pointer to an object is used as a pointer to a node. -/

/-- The node with the character `c`, or NULL at the end of the list. -/
def scan (m : Mem ο) (c : Fin 256) : (fuel tmpNode : Nat) → Option (Option Nat)
  | 0, _ => none
  | fuel + 1, tmpNode =>
    if m.thisChar tmpNode = c then some (some tmpNode)
    else
      match m.list tmpNode with
      | none => some none
      | some tmpNode => scan m c fuel tmpNode

def find (fuel : Nat) (m : Mem ο) : (tmpNode : Nat) → List Sym → Option (Option ο)
  | tmpNode, [] =>
    match scan m 0 fuel tmpNode with
    | none => none
    | some none => some none
    | some (some tmpNode) =>
      match m.next tmpNode with
      | none => some none
      | some (.object o) => some (some o)
      | some (.node _) => none
  | tmpNode, c :: rest =>
    match scan m c fuel tmpNode with
    | none => none
    | some none => some none
    | some (some tmpNode) =>
      match m.next tmpNode with
      | some (.node tmpNode) => find fuel m tmpNode rest
      | _ => none

/-- The node with the character `c`, or the last one of the list. -/
def follow (m : Mem ο) (c : Fin 256) : (fuel tmpNode : Nat) → Option Nat
  | 0, _ => none
  | fuel + 1, tmpNode =>
    if m.thisChar tmpNode = c then some tmpNode
    else
      match m.list tmpNode with
      | none => some tmpNode
      | some tmpNode => follow m c fuel tmpNode

/-- Where the string leaves the trie, and what is left of it; `some none` if the
string exists. -/
def leave (fuel : Nat) (m : Mem ο) : (tmpNode : Nat) → List Sym → Option (Option (Nat × List Sym))
  | tmpNode, [] =>
    match follow m 0 fuel tmpNode with
    | none => none
    | some tmpNode => if m.thisChar tmpNode = 0 then some none else some (some (tmpNode, []))
  | tmpNode, c :: rest =>
    match follow m c fuel tmpNode with
    | none => none
    | some tmpNode =>
      if m.thisChar tmpNode = c then
        match m.next tmpNode with
        | some (.node tmpNode) => leave fuel m tmpNode rest
        | _ => none
      else some (some (tmpNode, c :: rest))

/-- The rest of the new branch, below `tmpNode`. -/
def branchOff (newObject : ο) : (tmpNode : Nat) → List Sym → Mem ο → Mem ο
  | tmpNode, [], m => m.setNext tmpNode (some (.object newObject))
  | tmpNode, _ :: rest, m =>
    let (newNode, m) := Pool.getNode m
    let m := (Mem.setNext m tmpNode (some (.node newNode))).start newNode (current rest)
    branchOff newObject newNode rest m

def insert (fuel : Nat) (m : Mem ο) (trie : Nat) (s : List Sym) (newObject : ο) :
    Option (Mem ο × Int) :=
  match leave fuel m trie s with
  | none => none
  | some none => some (m, -1)
  | some (some (tmpNode, s)) =>
    let (newNode, m) := Pool.getNode m
    let m := (Mem.setList m tmpNode (some newNode)).start newNode (current s)
    some (branchOff newObject newNode s m, 0)

/-- The node with the character `c`, with `tmp_prev` and `branch`; `some none` if there
is none. -/
def search (m : Mem ο) (c : Fin 256) : (fuel tmpPrev tmp : Nat) → (branch : Bool) →
    Option (Option (Nat × Nat × Bool))
  | 0, _, _, _ => none
  | fuel + 1, tmpPrev, tmp, branch =>
    if m.thisChar tmp = c then some (some (tmpPrev, tmp, branch))
    else
      match m.list tmp with
      | none => some none
      | some next => search m c fuel tmp next true

/-- The node at the end of the string, with `last_undel` and `first_del`. -/
def descend (fuel : Nat) (m : Mem ο) : (tmpPrev tmp lastUndel firstDel : Nat) → (branch : Bool) →
    List Sym → Option (Option (Nat × Nat × Nat))
  | tmpPrev, tmp, lastUndel, firstDel, branch, [] =>
    match search m 0 fuel tmpPrev tmp branch with
    | none => none
    | some none => some none
    | some (some (tmpPrev, tmp, branch)) =>
      if branch || (m.list tmp).isSome then some (some (tmp, tmpPrev, tmp))
      else some (some (tmp, lastUndel, firstDel))
  | tmpPrev, tmp, lastUndel, firstDel, branch, c :: rest =>
    match search m c fuel tmpPrev tmp branch with
    | none => none
    | some none => some none
    | some (some (tmpPrev, tmp, branch)) =>
      match m.next tmp with
      | some (.node next) =>
        if branch || (m.list tmp).isSome then descend fuel m tmp next tmpPrev tmp false rest
        else descend fuel m tmp next lastUndel firstDel branch rest
      | _ => none

/-- `while ( tmp != NULL ) { first_del = tmp->next; return_node( tmp ); tmp = first_del; }` -/
def returnPath : (fuel : Nat) → Option (Ref ο) → Mem ο → Option (Mem ο)
  | _, none, m => some m
  | _, some (.object _), _ => none
  | 0, some (.node _), _ => none
  | fuel + 1, some (.node tmp), m => returnPath fuel (m.next tmp) (m.returnNode tmp)

/-- `first_del` is taken out of the pointer that leads to it. -/
def unlink (m : Mem ο) (lastUndel firstDel : Nat) : Mem ο :=
  match m.next lastUndel with
  | some (.node next) =>
    if firstDel = next then m.setNext lastUndel ((m.list firstDel).map .node)
    else m.setList lastUndel (m.list firstDel)
  | _ => m.setList lastUndel (m.list firstDel)

def delete (fuel : Nat) (m : Mem ο) (trie : Nat) (s : List Sym) : Option (Mem ο × Option ο) :=
  match m.list trie, s with
  | none, _ => some (m, none)
  | some _, [] => some (m, none)
  | some tmp, c :: rest =>
    match descend fuel m trie tmp trie tmp true (c :: rest) with
    | none => none
    | some none => some (m, none)
    | some (some (tmp, lastUndel, firstDel)) =>
      let result := match m.next tmp with
        | none => some none
        | some (.object o) => some (some o)
        | some (.node _) => none
      let m := (m.setNext tmp none)
      match result, returnPath fuel (some (.node firstDel)) (unlink m lastUndel firstDel) with
      | some delObject, some m => some (m, delObject)
      | _, _ => none

abbrev Key := { s : List Sym // s ≠ [] }

def store (ο : Type) (fuel : Nat) : Store (Trie ο) Key ο where
  insert t k o := (insert fuel t.mem t.root k.1 o).map fun (m, r) => (⟨t.root, m⟩, r)
  delete t k := (delete fuel t.mem t.root k.1).map fun (m, o) => (⟨t.root, m⟩, o)
  find t k := find fuel t.mem t.root k.1

end CLangProject.LiNTrie

import CLangProject.SingleList

/-!
# The two stacks

`array_stack.c` keeps a stack in an array that grows by 100 slots, with a pointer to the next free
one; `list_stack.c` keeps it in a list, with a counter beside it. `Agrees` says that both do the
same as a list whose front is the top of the stack.

They agree as long as the counter does. It is an `int`, so that pushing onto `INT_MAX` elements is
undefined. The size of the array is `unsigned` and wraps around later than that.

A pointer to a slot is counted in slots. A call has no result if it accesses memory outside of the
array, besides the cases in which a call of `list.c` has none. All requests for memory are granted:
the answers are an address for the array and one for a node.
-/

namespace CLangProject.Stacks

open List Option Function
open CircList (Node)
open SingleList (IsList)

variable {ο : Type}

/-! ## The array -/

/-- A block of `room` slots at the address `base`, with what has been stored in it. -/
structure Block (ο : Type) where
  base : Nat
  room : Nat
  slot : Nat → Option ο

namespace Block

def read (b : Block ο) (p : Nat) : Option ο := if b.base ≤ p ∧
    p < b.base + b.room then b.slot (p - b.base) else none

def write (b : Block ο) (p : Nat) (x : ο) : Option (Block ο) :=
  if b.base ≤ p ∧
    p < b.base + b.room then some { b with slot := update b.slot (p - b.base) (some x) } else none

/-- `RESIZE`: the contents are copied to a block of `room` slots at the address `base`. -/
def resize (b : Block ο) (base room : Nat) : Block ο :=
  ⟨base, room, fun i => if i < b.room ∧ i < room then b.slot i else none⟩

end Block

def resizeStep : Nat := 100

/-- `unsigned` -/
def unsigned (n : Nat) : Nat := n % 2 ^ 32

structure Stack (ο : Type) where
  block : Block ο
  storage : Nat
  top : Nat
  size : Nat

namespace Stack

/-- `Stack_new` after `Require(initial_size > 0)`: no call needs that there is a slot. -/
def new (storage initialSize : Nat) : Stack ο :=
  ⟨⟨storage, initialSize, fun _ => none⟩, storage, storage, initialSize⟩

def isEmpty (stack : Stack ο) : Bool := stack.top == stack.storage

/-- `CURRENT_SIZE` -/
def currentSize (stack : Stack ο) : Int := (stack.top : Int) - stack.storage

/-- The array is copied to the address `newstack`. -/
def grow (stack : Stack ο) (newstack : Nat) : Stack ο where
  block := stack.block.resize newstack (unsigned (stack.size + resizeStep))
  storage := newstack
  top := newstack + stack.size
  size := unsigned (stack.size + resizeStep)

def push (stack : Stack ο) (newstack : Nat) (data : ο) : Option (Stack ο) := do
  let stack := if stack.currentSize = stack.size then stack.grow newstack else stack
  some { stack with block := ← stack.block.write stack.top data, top := stack.top + 1 }

/-- The datum that has been popped, if any. -/
def pop (stack : Stack ο) : Option (Option ο × Stack ο) :=
  if stack.isEmpty then some (none, stack)
  else do
    let stack := { stack with top := stack.top - 1 }
    some (some (← stack.block.read stack.top), stack)

def peel (stack : Stack ο) (newstack : Nat) : Option (Option ο × Stack ο) := do
  match ← stack.pop with
  | (none, stack) => some (none, stack)
  | (some x, stack) => some (some x, ← stack.push newstack x)

end Stack

/-! ## The list -/

def intMax : Int := 2 ^ 31 - 1

structure LStack (ο : Type) where
  count : Int
  storage : Option Nat
  nodes : Cells (Node ο)

namespace LStack

def new : LStack ο := ⟨0, none, fun _ => none⟩

def isEmpty (stack : LStack ο) : Bool := stack.count == 0

def push (stack : LStack ο) (node : Nat) (data : ο) : Option (LStack ο) := do
  match ← SingleList.insert stack.nodes stack.storage (some node) data with
  | (.error _, _) => none
  | (.ok list, m) => if stack.count = intMax then none else some ⟨stack.count + 1, list, m⟩

/-- The answer of `List_delete_head` is not looked at; without it the datum is not set. -/
def pop (checks : Bool) (fuel : Nat) (stack : LStack ο) : Option (Option ο × LStack ο) :=
  if stack.count = 0 then some (none, stack)
  else do
    match ← SingleList.deleteHead checks fuel stack.nodes stack.storage with
    | (.ok (list, some x), m) => if stack.count = CircList.intMin then none else some (some x,
        ⟨stack.count - 1, list, m⟩)
    | _ => none

def peel (checks : Bool) (fuel : Nat) (stack : LStack ο) (node : Nat) :
    Option (Option ο × LStack ο) := do
  match ← stack.pop checks fuel with
  | (none, stack) => some (none, stack)
  | (some x, stack) => some (some x, ← stack.push node x)

end LStack

/-! ## What the calls are for -/

/-- The answers of the allocator. -/
structure Answers where
  storage : Nat
  node : Nat
deriving Repr, DecidableEq

inductive Call (ο : Type) where
  | push (x : ο) (ans : Answers)
  | pop
  | peel (ans : Answers)
  | isEmpty

inductive Answer (ο : Type) where
  | done
  | data (o : Option ο)
  | bool (b : Bool)

def Stack.exec (stack : Stack ο) : Call ο → Option (Answer ο × Stack ο)
  | .push x ans => (stack.push ans.storage x).map (.done, ·)
  | .pop => stack.pop.map fun r => (.data r.1, r.2)
  | .peel ans => (stack.peel ans.storage).map fun r => (.data r.1, r.2)
  | .isEmpty => some (.bool stack.isEmpty, stack)

def LStack.exec (checks : Bool) (fuel : Nat) (stack : LStack ο) : Call ο →
    Option (Answer ο × LStack ο)
  | .push x ans => (stack.push ans.node x).map (.done, ·)
  | .pop => (stack.pop checks fuel).map fun r => (.data r.1, r.2)
  | .peel ans => (stack.peel checks fuel ans.node).map fun r => (.data r.1, r.2)
  | .isEmpty => some (.bool stack.isEmpty, stack)

/-- The calls on a list. -/
def Call.eval (L : List ο) : Call ο → Answer ο × List ο
  | .push x _ => (.done, x :: L)
  | .pop => (.data L.head?, L.tail)
  | .peel _ => (.data L.head?, L)
  | .isEmpty => (.bool L.isEmpty, L)

/-- The counter is the length of the list, which is `n`. -/
def LStack.Counts (stack : LStack ο) (n : Nat) : Prop :=
  stack.count = n ∧ Ends (SingleList.length stack.nodes · stack.storage) n

/-- Both stacks answer every call of the run as the list does. -/
def Agrees (checks : Bool) : Stack ο → LStack ο → List ο → List (Call ο) → Prop
  | _, _, _, [] => True
  | s, t, L, c :: cs => ∃ s' t', s.exec c = some ((c.eval L).1, s') ∧
      Ends (t.exec checks · c) ((c.eval L).1, t') ∧ t'.Counts (c.eval L).2.length ∧
        Agrees checks s' t' (c.eval L).2 cs

/-- No call pushes onto `INT_MAX` elements. -/
def Fits : List ο → List (Call ο) → Prop
  | _, [] => True
  | L, c :: cs => ((c.eval L).2.length : Int) ≤ intMax ∧ Fits (c.eval L).2 cs

/-- The new node has a free address, at the time of the request. -/
def Allowed (checks : Bool) (t : LStack ο) : Call ο → Prop
  | .push _ ans => t.nodes ans.node = none
  | .peel ans => ∀ fuel r t', t.pop checks fuel = some (r, t') → t'.nodes ans.node = none
  | _ => True

def AllowedRun (checks : Bool) : LStack ο → List (Call ο) → Prop
  | _, [] => True
  | t, c :: cs => Allowed checks t c ∧ ∀ a t', Ends (t.exec checks · c) (a, t') →
      AllowedRun checks t' cs

variable {s s' : Stack ο} {t t' : LStack ο} {L : List ο} {x : ο} {checks : Bool}

/-! ## The array holds the list -/

/-- The array holds the elements of `L`, the top one last. -/
structure IsStack (s : Stack ο) (L : List ο) : Prop where
  base : s.block.base = s.storage
  room : s.block.room = s.size
  top : s.top = s.storage + L.length
  fits : L.length ≤ s.size
  slot : ∀ i x, L.reverse[i]? = some x → s.block.slot i = some x

theorem IsStack.new (storage n : Nat) : IsStack (.new storage n : Stack ο) [] :=
  ⟨rfl, rfl, rfl, Nat.zero_le _, by simp⟩

section

variable (h : IsStack s L)
include h

/-- `Stack_push` when there is a free slot. -/
theorem IsStack.store (hlt : L.length < s.size) (x : ο) :
    ∃ b, s.block.write s.top x = some b ∧ IsStack { s with block := b, top := s.top + 1 }
      (x :: L) := by
  have hin : s.block.base ≤ s.top ∧ s.top < s.block.base + s.block.room := by
    rw [h.base, h.room, h.top]
    omega
  refine ⟨_, if_pos hin, h.base, h.room, by simp [h.top]; omega, hlt, fun i y hi => ?_⟩
  have hidx : s.top - s.block.base = L.length := by
    rw [h.base, h.top]
    omega
  rw [reverse_cons, List.getElem?_append] at hi
  change update s.block.slot (s.top - s.block.base) (some x) i = some y
  rw [hidx]
  by_cases hiL : i < L.length
  · rw [length_reverse, if_pos hiL] at hi
    rw [update_of_ne (Nat.ne_of_lt hiL)]
    exact h.slot i y hi
  · rw [length_reverse, if_neg hiL] at hi
    obtain ⟨hzero, rfl⟩ : i - L.length = 0 ∧ x = y := by
      simpa [List.getElem?_singleton] using hi
    rw [show i = L.length by omega, update_self]

/-- A full array is copied to a larger one, unless the size wraps around. -/
theorem IsStack.grow (hfull : L.length = s.size) (hsize : s.size + resizeStep < 2 ^ 32)
    (newstack : Nat) :
    IsStack (s.grow newstack) L := by
  have hwrap : unsigned (s.size + resizeStep) = s.size + resizeStep := Nat.mod_eq_of_lt hsize
  rw [Stack.grow, hwrap]
  refine ⟨rfl, rfl, by rw [hfull], by simp [hfull], fun i x hi => ?_⟩
  have hiL : i < L.length := by simpa using (List.getElem?_eq_some_iff.1 hi).1
  have hin : i < s.block.room ∧ i < s.size + resizeStep := by
    rw [h.room, ← hfull]
    omega
  exact (if_pos hin).trans (h.slot i x hi)

theorem IsStack.push (hlen : (L.length : Int) ≤ intMax) (newstack : Nat) (x : ο) :
    ∃ s', s.push newstack x = some s' ∧ IsStack s' (x :: L) := by
  have hcur : s.currentSize = L.length := by
    rw [Stack.currentSize, h.top]
    omega
  unfold Stack.push
  rw [hcur]
  by_cases hfull : L.length = s.size
  · have hsize : s.size + resizeStep < 2 ^ 32 := by
      simp only [intMax, resizeStep] at *
      omega
    have hroom : L.length < (s.grow newstack).size := by
      change L.length < unsigned (s.size + resizeStep)
      rw [unsigned, Nat.mod_eq_of_lt hsize, hfull, resizeStep]
      omega
    obtain ⟨b, hb, h'⟩ := (h.grow hfull hsize newstack).store hroom x
    exact ⟨_, by rw [if_pos (congrArg Nat.cast hfull)]; simp only [hb, bind_eq_bind, bind_some], h'⟩
  · have hlt : L.length < s.size := Nat.lt_of_le_of_ne h.fits hfull
    obtain ⟨b, hb, h'⟩ := h.store hlt x
    exact ⟨_, by rw [if_neg (by omega)]; simp only [hb, bind_eq_bind, bind_some], h'⟩

theorem IsStack.isEmpty_eq : s.isEmpty = L.isEmpty := by
  cases L with
  | nil | cons x L => simp [Stack.isEmpty, h.top]

theorem IsStack.pop : ∃ s', s.pop = some (L.head?, s') ∧ IsStack s' L.tail ∧ s'.size = s.size := by
  cases L with
  | nil => exact ⟨s, if_pos h.isEmpty_eq, h, rfl⟩
  | cons x L =>
    have htop : s.top - 1 = s.storage + L.length := by simp [h.top]
    have hread : s.block.read (s.top - 1) = some x := by
      have hlen := h.fits
      rw [length_cons] at hlen
      rw [Block.read, if_pos (by rw [h.base, h.room, htop]; omega), h.base, htop,
        Nat.add_sub_cancel_left]
      exact h.slot _ _ (by simp)
    refine ⟨{ s with top := s.top - 1 }, ?_, ⟨h.base, h.room, htop, ?_, fun i y hi =>
      h.slot i y ?_⟩, rfl⟩
    · rw [Stack.pop, h.isEmpty_eq]
      simp [hread]
    · exact Nat.le_of_succ_le h.fits
    · rw [reverse_cons,
        List.getElem?_append_left (by simpa using (List.getElem?_eq_some_iff.1 hi).1)]
      exact hi

/-- `Stack_peel` never grows the array. -/
theorem IsStack.peel (hlen : (L.length : Int) ≤ intMax) (newstack : Nat) :
    ∃ s', s.peel newstack = some (L.head?, s') ∧ IsStack s' L := by
  obtain ⟨s1, hpop, h1, -⟩ := h.pop
  cases L with
  | nil => exact ⟨s1, by simp [Stack.peel, hpop], h1⟩
  | cons x L =>
    obtain ⟨s2, hpush, h2⟩ := h1.push (by simp at hlen ⊢; omega) newstack x
    exact ⟨s2, by simp [Stack.peel, hpop, hpush], h2⟩

theorem IsStack.exec (hlen : (L.length : Int) ≤ intMax) (c : Call ο) :
    ∃ s', s.exec c = some ((c.eval L).1, s') ∧ IsStack s' (c.eval L).2 := by
  cases c with
  | push x ans =>
    obtain ⟨s', hs, h'⟩ := h.push hlen ans.storage x
    exact ⟨s', by simp [Stack.exec, hs, Call.eval], h'⟩
  | pop =>
    obtain ⟨s', hs, h', -⟩ := h.pop
    exact ⟨s', by simp [Stack.exec, hs, Call.eval], h'⟩
  | peel ans =>
    obtain ⟨s', hs, h'⟩ := h.peel hlen ans.storage
    exact ⟨s', by simp [Stack.exec, hs, Call.eval], h'⟩
  | isEmpty => exact ⟨s, by simp [Stack.exec, h.isEmpty_eq, Call.eval], h⟩

end

/-! ## The list holds the list -/

structure IsLStack (t : LStack ο) (L : List ο) : Prop where
  count : t.count = L.length
  list : ∃ l, IsList t.nodes t.storage l L

theorem IsLStack.new : IsLStack (.new : LStack ο) [] := ⟨rfl, [], .nil⟩

theorem IsLStack.counts (h : IsLStack t L) : t.Counts L.length := by
  obtain ⟨l, hl⟩ := h.list
  exact ⟨h.count, hl.ends_length⟩

variable {node n : Nat} {c : Call ο} {calls : List (Call ο)}

section

variable (h : IsLStack t L)
include h

theorem IsLStack.push (hnode : t.nodes node = none) (hlen : (L.length : Int) < intMax) (x : ο) :
    ∃ t', t.push node x = some t' ∧ IsLStack t' (x :: L) := by
  obtain ⟨l, hl⟩ := h.list
  obtain ⟨hinsert, hl'⟩ := hl.insert_eq hnode x
  refine ⟨⟨t.count + 1, some node, update t.nodes node (some ⟨x, t.storage⟩)⟩, ?_, ⟨?_, _, hl'⟩⟩
  · simp only [LStack.push, hinsert, bind_eq_bind, bind_some]
    rw [if_neg (by rw [h.count]; omega)]
  · simp [h.count]

/-- The counter overflows. -/
theorem IsLStack.push_eq_none (hnode : t.nodes node = none)
    (hlen : (L.length : Int) = intMax) (x : ο) : t.push node x = none := by
  obtain ⟨l, hl⟩ := h.list
  simp only [LStack.push, (hl.insert_eq hnode x).1, bind_eq_bind, bind_some]
  rw [if_pos (by rw [h.count, hlen])]

theorem IsLStack.ends_pop (checks : Bool) :
    ∃ t', Ends (t.pop checks ·) (L.head?, t') ∧ IsLStack t' L.tail := by
  obtain ⟨l, hl⟩ := h.list
  cases L with
  | nil => exact ⟨t, .of_eq fun fuel => by simp [LStack.pop, h.count], h⟩
  | cons x L =>
    obtain ⟨a, l, rfl⟩ : ∃ a l', l = a :: l' := by
      cases l with
      | nil => cases hl.data
      | cons a l => exact ⟨a, l, rfl⟩
    obtain ⟨p, m, ⟨bound, hb⟩, hl', -⟩ := hl.ends_deleteHead checks
    refine ⟨⟨t.count - 1, p, m⟩, ⟨bound, fun fuel hfuel => ?_⟩, ⟨?_, l, hl'⟩⟩
    · simp only [LStack.pop, hb fuel hfuel, bind_eq_bind, bind_some, h.count,
        CircList.intMin, length_cons]
      rw [if_neg (by omega), if_neg (by omega)]
      rfl
    · simp [h.count]

theorem IsLStack.ends_peel (hlen : (L.length : Int) ≤ intMax)
    (hnode : ∀ fuel r t', t.pop checks fuel = some (r, t') → t'.nodes node = none) :
    ∃ t', Ends (t.peel checks · node) (L.head?, t') ∧ IsLStack t' L := by
  obtain ⟨t1, ⟨bound, hb⟩, h1⟩ := h.ends_pop checks
  cases L with
  | nil => exact ⟨t1, ⟨bound, fun fuel hfuel => by simp [LStack.peel, hb fuel hfuel]⟩, h1⟩
  | cons x L =>
    have hfree := hnode bound _ _ (hb bound (Nat.le_refl _))
    obtain ⟨t2, hpush, h2⟩ := h1.push hfree (by simp at hlen ⊢; omega) x
    exact ⟨t2, ⟨bound, fun fuel hfuel => by simp [LStack.peel, hb fuel hfuel, hpush]⟩, h2⟩

theorem IsLStack.ends_exec (hlen : (L.length : Int) ≤ intMax)
    (hfit : ((c.eval L).2.length : Int) ≤ intMax) (hall : Allowed checks t c) :
    ∃ t', Ends (t.exec checks · c) ((c.eval L).1, t') ∧ IsLStack t' (c.eval L).2 := by
  cases c with
  | push x ans =>
    obtain ⟨t', ht, h'⟩ := h.push hall (by simp [Call.eval] at hfit; omega) x
    exact ⟨t', .of_eq fun fuel => by simp [LStack.exec, ht, Call.eval], h'⟩
  | pop =>
    obtain ⟨t', hends, h'⟩ := h.ends_pop checks
    exact ⟨t', hends.map fun r => (Answer.data r.1, r.2), h'⟩
  | peel ans =>
    obtain ⟨t', hends, h'⟩ := h.ends_peel hlen hall
    exact ⟨t', hends.map fun r => (Answer.data r.1, r.2), h'⟩
  | isEmpty =>
    have hempty : t.isEmpty = L.isEmpty := by
      cases L with
      | nil => simp [LStack.isEmpty, h.count]
      | cons x L =>
        simp only [LStack.isEmpty, h.count, length_cons, isEmpty_cons, beq_eq_false_iff_ne, ne_eq]
        omega
    exact ⟨t, .of_eq fun fuel => by simp [LStack.exec, hempty, Call.eval], h⟩

end

/-! ## Runs -/

/-- Only a push makes the stack longer. -/
theorem eval_fits (hlen : (L.length : Int) ≤ intMax)
    (hnot : ¬ ((c.eval L).2.length : Int) ≤ intMax) :
    (∃ x ans, c = .push x ans) ∧ (L.length : Int) = intMax := by
  cases c with
  | push x ans =>
    refine ⟨⟨x, ans, rfl⟩, ?_⟩
    simp only [Call.eval, length_cons] at hnot
    omega
  | pop =>
    simp only [Call.eval, length_tail] at hnot
    omega
  | peel ans | isEmpty => exact absurd hlen hnot

theorem Agrees.fits (ht : IsLStack t L) (hlen : (L.length : Int) ≤ intMax)
    (hrun : AllowedRun checks t calls) (h : Agrees checks s t L calls) : Fits L calls := by
  induction calls generalizing s t L with
  | nil => trivial
  | cons c cs ih =>
    obtain ⟨s1, t1, -, hends, -, hrest⟩ := h
    by_cases hfit : ((c.eval L).2.length : Int) ≤ intMax
    · obtain ⟨t', hends', ht'⟩ := ht.ends_exec hlen hfit hrun.1
      obtain ⟨-, rfl⟩ := Prod.mk.inj (hends.unique hends')
      exact ⟨hfit, ih ht' hfit (hrun.2 _ _ hends') hrest⟩
    · -- the push has no result
      obtain ⟨⟨x, ans, rfl⟩, hmax⟩ := eval_fits hlen hfit
      obtain ⟨bound, hb⟩ := hends
      have hnone := hb bound (Nat.le_refl _)
      simp only [LStack.exec, ht.push_eq_none hrun.1 hmax, map_none] at hnone
      cases hnone

theorem IsStack.agrees (hs : IsStack s L) (ht : IsLStack t L) (hlen : (L.length : Int) ≤ intMax)
    (hrun : AllowedRun checks t calls) (h : Fits L calls) : Agrees checks s t L calls := by
  induction calls generalizing s t L with
  | nil => trivial
  | cons c cs ih =>
    obtain ⟨hfit, hrest⟩ := h
    obtain ⟨s', hexec, hs'⟩ := hs.exec hlen c
    obtain ⟨t', hends, ht'⟩ := ht.ends_exec hlen hfit hrun.1
    exact ⟨s', t', hexec, hends, ht'.counts, ih hs' ht' hfit (hrun.2 _ _ hends) hrest⟩

/-- **The two stacks agree** with each other and with a list, for every initial size and over every
run, if and only if no call pushes onto `INT_MAX` elements. -/
theorem agrees_iff (checks : Bool) (storage initialSize : Nat) {calls : List (Call ο)}
    (hrun : AllowedRun checks .new calls) :
    Agrees checks (.new storage initialSize) .new [] calls ↔ Fits [] calls := by
  have hzero : (([] : List ο).length : Int) ≤ intMax := by simp [intMax]
  exact ⟨fun h => h.fits .new hzero hrun, fun h => (IsStack.new storage initialSize).agrees
    .new hzero hrun h⟩

/-- So many pushes, each with a new node. -/
def pushes (x : ο) : (n node : Nat) → List (Call ο)
  | 0, _ => []
  | n + 1, node => .push x ⟨0, node⟩ :: pushes x n (node + 1)

theorem allowedRun_pushes (x : ο) (h : ∀ a, node ≤ a → t.nodes a = none) :
    AllowedRun checks t (pushes x n node) := by
  induction n generalizing t node with
  | zero => trivial
  | succ n ih =>
    have hnode := h node (Nat.le_refl _)
    refine ⟨hnode, fun a t' ⟨bound, hb⟩ => ih fun b hb' => ?_⟩
    have hpush : ∃ u, t.push node x = some u ∧ (.done, u) = (a, t') :=
      map_eq_some_iff.1 (hb bound (Nat.le_refl _))
    obtain ⟨u, hu, heq⟩ := hpush
    obtain ⟨-, rfl⟩ := Prod.mk.inj heq
    simp only [LStack.push, SingleList.insert, SingleList.allocateNode, Cells.alloc_eq hnode,
      CircList.setNext, Cells.modify, update_self, update_idem, map_some, bind_eq_bind,
        bind_some] at hu
    split_ifs at hu
    obtain rfl := some.inj hu
    exact (update_of_ne (by omega) ..).trans (h b (by omega))

theorem fits_pushes_iff (hlen : (L.length : Int) ≤ intMax) :
    Fits L (pushes x n node) ↔ ((L.length + n : Nat) : Int) ≤ intMax := by
  induction n generalizing L node with
  | zero => exact iff_of_true trivial hlen
  | succ n ih =>
    have hnat : (x :: L).length + n = L.length + (n + 1) := by
      rw [length_cons]
      omega
    rw [← hnat]
    constructor
    · rintro ⟨hfit, hrest⟩
      exact (ih (L := x :: L) hfit).1 hrest
    · intro h
      have hfit : ((x :: L).length : Int) ≤ intMax := by omega
      exact ⟨hfit, (ih hfit).2 h⟩

/-- An array of one slot grows twice. -/
theorem agrees_across_resize : Agrees true (.new 0 1) .new [] (pushes 'a' 150 0) :=
  (agrees_iff true 0 1 (allowedRun_pushes 'a' fun _ _ => rfl)).2
  ((fits_pushes_iff (by decide)).2 (by decide))

/-- `2 ^ 31` pushes are one too many. -/
theorem counter_overflows : AllowedRun true .new (pushes 'a' (2 ^ 31) 0) ∧
    ¬ Agrees true (.new 0 50) .new [] (pushes 'a' (2 ^ 31) 0) := by
  have hrun : AllowedRun true .new (pushes 'a' (2 ^ 31) 0) := allowedRun_pushes 'a' fun _ _ => rfl
  refine ⟨hrun, fun h => ?_⟩
  have hlen := (fits_pushes_iff (by decide)).1 (h.fits .new (by decide) hrun)
  exact absurd hlen (by decide)

end CLangProject.Stacks

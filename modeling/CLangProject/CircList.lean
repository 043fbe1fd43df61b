import CLangProject.Cells
import CLangProject.Linked

/-!
# Circular lists

`circ_list.c` keeps a circular list by a pointer to its last node, whose `next` is the
first one. A function has no result if it follows NULL, if it uses a node that has been
freed, if an `Ensure` fails, or if a loop exceeds its bound `fuel`.

`Ring` describes the list by its nodes in the order of a traversal. All loops that walk
along the list start behind a node and end at the last one, so that one induction
over the rest of the nodes serves each of them.
-/

namespace CLangProject.CircList

open List Option Function

structure Node (ο : Type) where
  data : ο
  next : Option Nat

variable {ο : Type} {m m' : Cells (Node ο)} {a b i last fuel : Nat} {p q : Option Nat}
    {l r : List Nat}
  {L : List ο} {x : ο}

/-! ## Calls -/

def data (m : Cells (Node ο)) (a : Nat) : Option ο := (m a).map Node.data

def next (m : Cells (Node ο)) (a : Nat) : Option (Option Nat) := (m a).map Node.next

/-- The node that `next` points to. -/
def step (m : Cells (Node ο)) (a : Nat) : Option Nat := Cells.link Node.next m a

def setNext (m : Cells (Node ο)) (a : Nat) (p : Option Nat) : Option (Cells (Node ο)) :=
  m.modify a fun n => { n with next := p }

/-- The new node has the address `newNode`. -/
def insert (m : Cells (Node ο)) (circlist : Option Nat) (newNode : Nat) (x : ο) :
    Option (Cells (Node ο) × Option Nat) := do
  let m ← m.alloc newNode ⟨x, none⟩
  match circlist with
  | none => some (← setNext m newNode (some newNode), some newNode)
  | some last =>
    let m ← setNext m newNode (← next m last)
    some (← setNext m last (some newNode), some last)

def append (m : Cells (Node ο)) (circlist : Option Nat) (newNode : Nat) (x : ο) :
    Option (Cells (Node ο) × Option Nat) := do
  let (m, circlist) ← insert m circlist newNode x
  some (m, ← next m (← circlist))

/-- The node before `pNode`, or the last one. -/
def findPrev (m : Cells (Node ο)) (last pNode : Nat) : (fuel nodeIter : Nat) → Option Nat
  | 0, _ => none
  | fuel + 1, nodeIter =>
    if nodeIter = last then some nodeIter
    else do
      let n ← next m nodeIter
      if n = some pNode then some nodeIter else findPrev m last pNode fuel (← n)

def deleteNode (fuel : Nat) (m : Cells (Node ο)) (last pNode : Nat) :
    Option (Cells (Node ο) × Option Nat) := do
  if some pNode = (← next m pNode) then some (← m.free pNode, none)
  else
    let nodeIter ← findPrev m last pNode fuel (← step m last)
    if (← next m nodeIter) = some pNode then
      let m ← setNext m nodeIter (← next m pNode)
      some (← m.free pNode, some (if pNode = last then nodeIter else last))
    else none

/-- The memory, the list and the datum that has been deleted, if any. -/
def delete (fuel : Nat) (m : Cells (Node ο)) (circlist : Option Nat) :
    Option (Cells (Node ο) × Option Nat × Option ο) :=
  match circlist with
  | none => some (m, none, none)
  | some last => do
    let x ← data m (← step m last)
    let (m, circlist) ← deleteNode fuel m last last
    some (m, circlist, some x)

/-- The answer, and the data to which the function has been applied. -/
def traverseLoop (m : Cells (Node ο)) (applyFn : ο → Bool) (last : Nat) :
    (fuel tmp : Nat) → Option (Bool × List ο)
  | 0, _ => none
  | fuel + 1, tmp => do
    let tmp ← step m tmp
    let x ← data m tmp
    if applyFn x then
      if tmp = last then some (true, [x])
      else
        let (answer, xs) ← traverseLoop m applyFn last fuel tmp
        some (answer, x :: xs)
    else some (false, [x])

def traverse (fuel : Nat) (m : Cells (Node ο)) (circlist : Option Nat) (applyFn : ο → Bool) :
    Option (Bool × List ο) :=
  match circlist with
  | none => some (true, [])
  | some last => traverseLoop m applyFn last fuel last

def intMin : Int := -2 ^ 31

/-- The loop of `CircList_nth`; going below `INT_MIN` is undefined. -/
def nthLoop (m : Cells (Node ο)) (last : Nat) : (fuel iter : Nat) → Int → Option (Int × Nat)
  | 0, _, _ => none
  | fuel + 1, iter, idx => do
    let iter ← step m iter
    if idx = intMin then none
    else if idx - 1 > 0 ∧ iter ≠ last then nthLoop m last fuel iter (idx - 1)
    else some (idx - 1, iter)

def nth (fuel : Nat) (m : Cells (Node ο)) (circlist : Option Nat) (idx : Int) :
    Option (Option Nat) :=
  match circlist with
  | none => some none
  | some last =>
    if idx = -1 then some (some last)
    else do
      let (idx, iter) ← nthLoop m last fuel last idx
      some (if idx ≠ 0 then none else some iter)

def iterator (m : Cells (Node ο)) (circlist lastReturn : Option Nat) : Option (Option Nat) :=
  match lastReturn, circlist with
  | none, none => some none
  | none, some last => next m last
  | some i, circlist => if some i = circlist then some none else next m i

/-- What the iterator returns until it returns NULL. -/
def enumerate (m : Cells (Node ο)) (circlist : Option Nat) : (fuel : Nat) → Option Nat →
    Option (List Nat)
  | 0, _ => none
  | fuel + 1, lastReturn => do
    match ← iterator m circlist lastReturn with
    | none => some []
    | some i => some (i :: (← enumerate m circlist fuel (some i)))

def lengthLoop (m : Cells (Node ο)) (circlist : Option Nat) : (fuel : Nat) → Option Nat →
    (accum : Nat) → Option Nat
  | 0, _, _ => none
  | fuel + 1, currNode, accum => do
    match ← iterator m circlist currNode with
    | none => some accum
    | some i => lengthLoop m circlist fuel (some i) (accum + 1)

def length (fuel : Nat) (m : Cells (Node ο)) (circlist : Option Nat) : Option Nat :=
  lengthLoop m circlist fuel none 0

/-- The loop of `CircList_destroy`, with the data that have been given to the function.
`FREE` sets the list to NULL, and the end of the loop to `next_tmp`. -/
def destroyLoop (hasFn : Bool) : (fuel : Nat) → Cells (Node ο) → (circlist nextTmp : Option Nat) →
    List ο → Option (Cells (Node ο) × Option Nat × List ο)
  | 0, _, _, _, _ => none
  | fuel + 1, m, circlist, nextTmp, done =>
    if circlist = nextTmp then some (m, circlist, done)
    else do
      let node ← circlist
      let nextTmp ← next m node
      let x ← data m node
      let m ← m.free node
      destroyLoop hasFn fuel m nextTmp nextTmp (if hasFn then done ++ [x] else done)

def destroy (fuel : Nat) (m : Cells (Node ο)) (circlist : Option Nat) (hasFn : Bool) :
    Option (Cells (Node ο) × Option Nat × List ο) :=
  destroyLoop hasFn fuel m circlist none []

/-! ## Rings -/

/-- The list `p` has the nodes `l`. -/
structure Ring (m : Cells (Node ο)) (p : Option Nat) (l : List Nat) : Prop where
  nodup : l.Nodup
  last_eq : l.getLast? = p
  path : Path (step m) l.head? l l.head?

/-- The list `p` has the data `L`. -/
def Holds (m : Cells (Node ο)) (p : Option Nat) (L : List ο) : Prop :=
  ∃ l, Ring m p l ∧ l.map (data m) = L.map some

theorem next_of_step (h : step m a = some b) : next m a = some (some b) := by
  obtain ⟨n, hn, hb⟩ := Cells.exists_of_link h
  rw [next, hn, map_some, hb]

/-- The nodes `r ++ [last]` follow the node `i`. -/
structure Rest (m : Cells (Node ο)) (last i : Nat) (r : List Nat) : Prop where
  path : ∃ q, Path (step m) (step m i) (r ++ [last]) q
  last_notMem : last ∉ r

theorem Rest.step_nil (h : Rest m last i []) : step m i = some last := by
  obtain ⟨q, hq, -⟩ := h.path
  exact hq

theorem Rest.step_cons (h : Rest m last i (a :: r)) : step m i = some a ∧ a ≠ last ∧
    Rest m last a r := by
  obtain ⟨q, hq, hpath⟩ := h.path
  have hne := h.last_notMem
  rw [mem_cons, not_or] at hne
  exact ⟨hq, Ne.symm hne.1, ⟨q, hpath⟩, hne.2⟩

namespace Ring

theorem nil_iff (h : Ring m p l) : l = [] ↔ p = none := by
  rw [← h.last_eq, List.getLast?_eq_none_iff]

/-- A list that is not empty has a last node, and all nodes follow it. -/
theorem exists_rest (h : Ring m (some last) l) : ∃ r, l = r ++ [last] ∧ Rest m last last r := by
  obtain ⟨r, rfl⟩ := List.getLast?_eq_some_iff.1 h.last_eq
  have hnodup := nodup_append.1 h.nodup
  refine ⟨r, rfl, ⟨⟨(r ++ [last]).head?, ?_⟩, fun hmem =>
    hnodup.2.2 last hmem last (mem_singleton_self _) rfl⟩⟩
  obtain ⟨q, -, -, hlast⟩ := path_append.1 h.path
  rw [show step m last = _ from hlast]
  exact h.path

/-- The first node becomes the last one. -/
theorem rotate (h : Ring m p (a :: l)) : Ring m (some a) (l ++ [a]) := by
  obtain ⟨hnodup, -, -, hpath⟩ := h
  refine ⟨(perm_append_singleton a l).nodup_iff.2 hnodup, List.getLast?_concat .., ?_⟩
  cases l with
  | nil => exact ⟨rfl, hpath⟩
  | cons b l => exact path_append.2 ⟨some a, ⟨rfl, hpath.2⟩, rfl, hpath.1⟩

/-- The last node is taken out, by the link of the node before it. -/
theorem dropLast (h : Ring m p (l ++ [a] ++ [last])) (hl : ∀ i ∈ l, step m' i = step m i)
    (ha : step m' a = step m last) : Ring m' (some a) (l ++ [a]) := by
  have hhead : (l ++ [a] ++ [last]).head? = (l ++ [a]).head? :=
    List.head?_append_of_ne_nil _ (by simp)
  have hpath := h.path
  rw [hhead] at hpath
  obtain ⟨q, hpath, -, hlast⟩ := path_append.1 hpath
  exact ⟨(nodup_append.1 h.nodup).1, List.getLast?_concat .., hpath.relink hl (ha.trans hlast)⟩

variable {l' : List Nat}

theorem eq_of_path {f : Nat} (h : Path (step m) q l (some f)) (hl : f ∉ l)
    (h' : Path (step m) q l' (some f)) (hl' : f ∉ l') : l = l' := by
  induction l generalizing q l' with
  | nil =>
    obtain rfl : q = some f := h
    cases l' with
    | nil => rfl
    | cons b l' => exact (hl' (some.inj h'.1 ▸ mem_cons_self)).elim
  | cons a l ih =>
    cases l' with
    | nil =>
      obtain rfl : q = some f := h'
      exact (hl (some.inj h.1 ▸ mem_cons_self)).elim
    | cons b l' =>
      obtain rfl : a = b := some.inj (h.1.symm.trans h'.1)
      rw [ih h.2 (fun hmem => hl (mem_cons_of_mem a hmem)) h'.2
        fun hmem => hl' (mem_cons_of_mem a hmem)]

/-- A list has its nodes in one order only. -/
theorem unique (h : Ring m p l) (h' : Ring m p l') : l = l' := by
  cases p with
  | none => rw [h.nil_iff.2 rfl, h'.nil_iff.2 rfl]
  | some last =>
    obtain ⟨r, rfl, ⟨q, hq⟩, hr⟩ := h.exists_rest
    obtain ⟨r', rfl, ⟨q', hq'⟩, hr'⟩ := h'.exists_rest
    obtain ⟨u, hu, rfl, -⟩ := path_append.1 hq
    obtain ⟨u', hu', rfl, -⟩ := path_append.1 hq'
    rw [eq_of_path hu hr hu' hr']

end Ring

theorem Holds.unique {L' : List ο} (h : Holds m p L) (h' : Holds m p L') : L = L' := by
  obtain ⟨l, hl, hL⟩ := h
  obtain ⟨l', hl', hL'⟩ := h'
  obtain rfl := hl.unique hl'
  exact map_injective_iff.2 (fun _ _ => some.inj) (hL.symm.trans hL')

/-! ## Insertion -/

theorem step_update (n : Node ο) : step (update m a (some n)) = update (step m) a n.next :=
  Cells.link_update ..

theorem data_update (n : Node ο) :
    data (update m a (some n)) = update (data m) a (some n.data) := by
  funext i
  by_cases hi : i = a
  · subst hi
    rw [data, update_self, update_self, map_some]
  · rw [data, update_of_ne hi, update_of_ne hi, data]

/-- A new node becomes the first one. -/
theorem insert_ok (h : Ring m p l) (ha : m a = none) :
    ∃ m', insert m p a x = some (m', (a :: l).getLast?) ∧ Ring m' (a :: l).getLast? (a :: l) ∧
      data m' a = some x ∧ ∀ i ∈ l, data m' i = data m i := by
  have hstep : step m a = none := by rw [step, Cells.link, ha, bind_none]
  have hal : a ∉ l := fun hmem => by
    have := h.path.next_ne_none
      (fun hnone => by rw [List.head?_eq_none_iff.1 hnone] at hmem; cases hmem) hmem
    exact this hstep
  cases p with
  | none =>
    obtain rfl := h.nil_iff.2 rfl
    refine ⟨update m a (some ⟨x, some a⟩), ?_, ⟨nodup_singleton a, rfl, rfl, ?_⟩, ?_, by simp⟩
    · simp only [insert, Cells.alloc_eq ha, setNext, Cells.modify, update_self, bind_eq_bind,
        bind_some, update_idem]
      rfl
    · rw [step_update, update_self]
      rfl
    · rw [data_update, update_self]
  | some last =>
    obtain ⟨r, rfl, -⟩ := h.exists_rest
    obtain ⟨f, hf⟩ : ∃ f, (r ++ [last]).head? = some f := by
      cases r with
      | nil => exact ⟨last, rfl⟩
      | cons b r => exact ⟨b, rfl⟩
    have hpath := h.path
    rw [hf] at hpath
    have hlast : step m last = some f := by
      obtain ⟨q, -, -, hlast⟩ := path_append.1 hpath
      exact hlast
    obtain ⟨n, hn, hnf⟩ := Cells.exists_of_link hlast
    have hne : last ≠ a := by
      rintro rfl
      rw [ha] at hn
      cases hn
    refine ⟨update (update m a (some ⟨x, some f⟩)) last (some ⟨n.data, some a⟩), ?_,
      ⟨nodup_cons.2 ⟨hal, h.nodup⟩, rfl, rfl, ?_⟩, ?_, fun i hi => ?_⟩
    · simp only [insert, Cells.alloc_eq ha, setNext, next, Cells.modify, update_self,
        update_of_ne hne, hn, bind_eq_bind, bind_some, map_some, update_idem, hnf]
      rw [← cons_append, List.getLast?_concat]
    · rw [step_update, step_update, update_of_ne (Ne.symm hne), update_self]
      refine hpath.relink (fun i hi => ?_) (update_self ..)
      have hil : i ≠ last := fun heq =>
        (nodup_append.1 h.nodup).2.2 i hi last (mem_singleton_self _) heq
      have hia : i ≠ a := fun heq => hal (heq ▸ mem_append_left _ hi)
      rw [update_of_ne hil, update_of_ne hia]
    · rw [data_update, update_of_ne (Ne.symm hne), data_update, update_self]
    · have hia : i ≠ a := fun heq => hal (heq ▸ hi)
      rw [data_update, data_update]
      by_cases hil : i = last
      · rw [hil, update_self, data, hn, map_some]
      · rw [update_of_ne hil, update_of_ne hia]

theorem append_ok (h : Ring m p l) (ha : m a = none) : ∃ m', append m p a x = some (m', some a) ∧
    Ring m' (some a) (l ++ [a]) ∧ data m' a = some x ∧ ∀ i ∈ l, data m' i = data m i := by
  obtain ⟨m', hinsert, hring, hdata⟩ := insert_ok (x := x) h ha
  obtain ⟨last, hlast⟩ : ∃ last, (a :: l).getLast? = some last :=
    ⟨_, List.getLast?_eq_some_getLast (by simp)⟩
  refine ⟨m', ?_, hring.rotate, hdata⟩
  rw [hlast] at hinsert hring
  obtain ⟨r, hr, -⟩ := hring.exists_rest
  have hpath := hring.path
  rw [hr] at hpath
  obtain ⟨q, -, -, hstep⟩ := path_append.1 hpath
  rw [← hr] at hstep
  simp only [append, hinsert, bind_eq_bind, bind_some,
    next_of_step (show step m' last = some a from hstep)]

theorem Holds.insert (h : Holds m p L) (ha : m a = none) :
    ∃ m' p', CircList.insert m p a x = some (m', p') ∧ Holds m' p' (x :: L) := by
  obtain ⟨l, hl, hL⟩ := h
  obtain ⟨m', hinsert, hring, hx, hdata⟩ := insert_ok (x := x) hl ha
  refine ⟨m', _, hinsert, a :: l, hring, ?_⟩
  rw [map_cons, hx, map_congr_left hdata, hL, map_cons]

theorem Holds.append (h : Holds m p L) (ha : m a = none) :
    ∃ m' p', CircList.append m p a x = some (m', p') ∧ Holds m' p' (L ++ [x]) := by
  obtain ⟨l, hl, hL⟩ := h
  obtain ⟨m', happend, hring, hx, hdata⟩ := append_ok (x := x) hl ha
  refine ⟨m', _, happend, l ++ [a], hring, ?_⟩
  rw [map_append, map_append, map_congr_left hdata, hL, map_singleton, hx, map_singleton]

/-! ## Walks along a list -/

theorem Rest.exists_step (h : Rest m last i r) : ∃ b, step m i = some b := by
  cases r with
  | nil => exact ⟨_, h.step_nil⟩
  | cons a r => exact ⟨a, h.step_cons.1⟩

theorem exists_cons_of_map (h : (a :: l).map (data m) = L.map some) :
    ∃ x L', L = x :: L' ∧ data m a = some x ∧ l.map (data m) = L'.map some := by
  cases L with
  | nil => cases h
  | cons x L =>
    rw [map_cons, map_cons, List.cons.injEq] at h
    exact ⟨x, L, rfl, h⟩

theorem traverseLoop_eq (applyFn : ο → Bool) (h : Rest m last i r)
    (hL : (r ++ [last]).map (data m) = L.map some) (hfuel : r.length < fuel) :
      traverseLoop m applyFn last fuel i = some (L.all applyFn, L.takeWhile applyFn ++
      (L.dropWhile applyFn).take 1) := by
  induction r generalizing i L fuel with
  | nil =>
    obtain ⟨fuel, rfl⟩ := Nat.exists_eq_add_one_of_ne_zero (Nat.ne_of_gt hfuel)
    obtain ⟨x, L, rfl, hx, hnil⟩ := exists_cons_of_map hL
    obtain rfl : L = [] := by simpa using hnil.symm
    cases hf : applyFn x <;>
      simp [traverseLoop, h.step_nil, hx, hf]
  | cons a r ih =>
    obtain ⟨hstep, hne, hrest⟩ := h.step_cons
    rw [length_cons] at hfuel
    obtain ⟨fuel, rfl⟩ := Nat.exists_eq_add_one_of_ne_zero (show fuel ≠ 0 by omega)
    obtain ⟨x, L, rfl, hx, hL⟩ := exists_cons_of_map hL
    have ih := ih hrest hL (Nat.lt_of_succ_lt_succ hfuel)
    cases hf : applyFn x <;>
      simp [traverseLoop, hstep, hx, hf, hne, ih]

variable {idx : Int}

theorem nthLoop_succ (h : step m i = some b) (hidx : intMin < idx) :
    nthLoop m last (fuel + 1) i idx =
      if idx - 1 > 0 ∧ b ≠ last then nthLoop m last fuel b (idx - 1) else some (idx - 1, b) := by
  simp only [nthLoop, h, bind_eq_bind, bind_some, if_neg (Int.ne_of_gt hidx)]

/-- From a node on, the loop stops at the node looked for or at the last one. -/
theorem nthLoop_eq (h : Rest m last i r) (k : Nat) (hfuel : r.length < fuel) : ∃ j b,
    nthLoop m last fuel i (k + 1) = some (j, b) ∧ (if j ≠ 0 then none else some b) =
      (r ++ [last])[k]? := by
  have hmin : ∀ k : Nat, intMin < k + 1 := fun k => by
    unfold intMin
    omega
  induction r generalizing i k fuel with
  | nil =>
    obtain ⟨fuel, rfl⟩ := Nat.exists_eq_add_one_of_ne_zero (Nat.ne_of_gt hfuel)
    refine ⟨k, last, ?_, ?_⟩
    · rw [nthLoop_succ h.step_nil (hmin k), if_neg fun hcond => hcond.2 rfl, Int.add_sub_cancel]
    · cases k with
      | zero => rfl
      | succ k => rfl
  | cons a r ih =>
    obtain ⟨hstep, hne, hrest⟩ := h.step_cons
    rw [length_cons] at hfuel
    obtain ⟨fuel, rfl⟩ := Nat.exists_eq_add_one_of_ne_zero (show fuel ≠ 0 by omega)
    rw [nthLoop_succ hstep (hmin k), Int.add_sub_cancel]
    cases k with
    | zero => exact ⟨0, a, if_neg fun hcond => Int.lt_irrefl 0 hcond.1, rfl⟩
    | succ k =>
      rw [if_pos ⟨Int.natCast_pos.2 (Nat.succ_pos k), hne⟩]
      exact ih hrest k (Nat.lt_of_succ_lt_succ hfuel)

theorem nth_eq (h : Ring m p l) (hidx : intMin < idx) (hfuel : l.length ≤ fuel) : nth fuel m p idx =
      some (if idx = -1 then l.getLast? else if 1 ≤ idx then l[(idx - 1).toNat]? else none) := by
  cases p with
  | none =>
    obtain rfl := h.nil_iff.2 rfl
    simp [nth]
  | some last =>
    obtain ⟨r, rfl, hrest⟩ := h.exists_rest
    rw [length_append, length_singleton] at hfuel
    by_cases hone : idx = -1
    · simp [nth, hone]
    · rw [nth, if_neg hone, if_neg hone]
      by_cases hpos : 1 ≤ idx
      · obtain ⟨k, rfl⟩ : ∃ k : Nat, idx = k + 1 := ⟨(idx - 1).toNat, by omega⟩
        obtain ⟨j, b, hloop, hb⟩ := nthLoop_eq hrest k (show r.length < fuel by omega)
        rw [if_pos hpos, hloop, show ((k : Int) + 1 - 1).toNat = k by omega, ← hb]
        rfl
      · -- one step, after which the index is negative
        obtain ⟨fuel, rfl⟩ := Nat.exists_eq_add_one_of_ne_zero (show fuel ≠ 0 by omega)
        obtain ⟨b, hb⟩ := hrest.exists_step
        rw [nthLoop_succ hb hidx, if_neg (by omega), if_neg hpos]
        simp only [bind_eq_bind, bind_some]
        rw [if_pos (by omega)]

theorem iterator_start : iterator m (some last) none = next m last := rfl

theorem iterator_next (h : i ≠ last) : iterator m (some last) (some i) = next m i := by
  simp [iterator, h]

theorem iterator_last : iterator m (some last) (some last) = some none := by simp [iterator]

theorem enumerate_eq (h : Rest m last i r) (hq : iterator m (some last) q = next m i)
    (hfuel : r.length + 1 < fuel) : enumerate m (some last) fuel q = some (r ++ [last]) := by
  induction r generalizing i q fuel with
  | nil =>
    obtain ⟨fuel, rfl⟩ : ∃ n, fuel = n + 1 + 1 := ⟨fuel - 2, by rw [length_nil] at hfuel; omega⟩
    simp [enumerate, hq, next_of_step h.step_nil, iterator_last]
  | cons a r ih =>
    obtain ⟨hstep, hne, hrest⟩ := h.step_cons
    rw [length_cons] at hfuel
    obtain ⟨fuel, rfl⟩ := Nat.exists_eq_add_one_of_ne_zero (show fuel ≠ 0 by omega)
    have ih := ih hrest (iterator_next hne) (Nat.lt_of_succ_lt_succ hfuel)
    simp [enumerate, hq, next_of_step hstep, ih]

theorem lengthLoop_eq (accum : Nat) (h : Rest m last i r) (hq : iterator m (some last) q = next m i)
    (hfuel : r.length + 1 < fuel) :
    lengthLoop m (some last) fuel q accum = some (accum + (r ++ [last]).length) := by
  induction r generalizing i q fuel accum with
  | nil =>
    obtain ⟨fuel, rfl⟩ : ∃ n, fuel = n + 1 + 1 := ⟨fuel - 2, by rw [length_nil] at hfuel; omega⟩
    simp [lengthLoop, hq, next_of_step h.step_nil, iterator_last]
  | cons a r ih =>
    obtain ⟨hstep, hne, hrest⟩ := h.step_cons
    rw [length_cons] at hfuel
    obtain ⟨fuel, rfl⟩ := Nat.exists_eq_add_one_of_ne_zero (show fuel ≠ 0 by omega)
    have ih := ih (accum + 1) hrest (iterator_next hne) (Nat.lt_of_succ_lt_succ hfuel)
    simp [lengthLoop, hq, next_of_step hstep, ih]
    omega

/-- The walks along the list see the data `L`: `CircList_traverse` stops after the first
datum that the function refuses. -/
def Walks (m : Cells (Node ο)) (p : Option Nat) (L : List ο) : Prop :=
  ∃ l : List Nat, l.Nodup ∧ l.map (data m) = L.map some ∧ (∀ applyFn, Ends (traverse · m p applyFn)
      (L.all applyFn, L.takeWhile applyFn ++ (L.dropWhile applyFn).take 1)) ∧
    Ends (enumerate m p · none) l ∧ Ends (length · m p) L.length ∧
    ∀ idx, intMin < idx → Ends (nth · m p idx)
      (if idx = -1 then l.getLast? else if 1 ≤ idx then l[(idx - 1).toNat]? else none)

theorem Holds.walks (h : Holds m p L) : Walks m p L := by
  obtain ⟨l, hl, hL⟩ := h
  have hlen : L.length = l.length := by simpa using congrArg List.length hL.symm
  rw [Walks, hlen]
  have hnth : ∀ idx, intMin < idx → Ends (nth · m p idx) _ :=
    fun idx hidx => ⟨l.length, fun fuel => nth_eq hl hidx⟩
  cases p with
  | none =>
    obtain rfl := hl.nil_iff.2 rfl
    obtain rfl : L = [] := length_eq_zero_iff.1 hlen
    refine ⟨[], hl.nodup, hL, fun applyFn => ⟨0, fun _ _ => rfl⟩, ⟨1, fun fuel hfuel => ?_⟩,
      ⟨1, fun fuel hfuel => ?_⟩, hnth⟩
    all_goals
      obtain ⟨fuel, rfl⟩ := Nat.exists_eq_add_of_le' hfuel
      rfl
  | some last =>
    obtain ⟨r, rfl, hrest⟩ := hl.exists_rest
    refine ⟨r ++ [last], hl.nodup, hL, fun applyFn =>
      ⟨r.length + 1, fun fuel => traverseLoop_eq applyFn hrest hL⟩,
      ⟨r.length + 1 + 1, fun fuel => enumerate_eq hrest iterator_start⟩,
      ⟨r.length + 1 + 1, fun fuel hfuel => ?_⟩, hnth⟩
    exact (lengthLoop_eq 0 hrest iterator_start hfuel).trans (by rw [Nat.zero_add])

/-- A call with the address of the new node. -/
inductive Call (ο : Type) where
  | insert (newNode : Nat) (x : ο)
  | append (newNode : Nat) (x : ο)

/-- Every state shows the data `L`. Whenever the allocator finds a free address the call has
a result, and the datum is put before or after the others. -/
def Refines (m : Cells (Node ο)) (p : Option Nat) (L : List ο) : List (Call ο) → Prop
  | [] => Walks m p L
  | .insert a x :: cs => Walks m p L ∧
      (m a = none → ∃ m' p', insert m p a x = some (m', p') ∧ Refines m' p' (x :: L) cs)
  | .append a x :: cs => Walks m p L ∧
      (m a = none → ∃ m' p', append m p a x = some (m', p') ∧ Refines m' p' (L ++ [x]) cs)

theorem Holds.refines (h : Holds m p L) (cs : List (Call ο)) : Refines m p L cs := by
  induction cs generalizing m p L with
  | nil => exact h.walks
  | cons c cs ih =>
    cases c with
    | insert a x =>
      refine ⟨h.walks, fun ha => ?_⟩
      obtain ⟨m', p', hinsert, h'⟩ := h.insert (x := x) ha
      exact ⟨m', p', hinsert, ih h'⟩
    | append a x =>
      refine ⟨h.walks, fun ha => ?_⟩
      obtain ⟨m', p', happend, h'⟩ := h.append (x := x) ha
      exact ⟨m', p', happend, ih h'⟩

theorem holds_new (m : Cells (Node ο)) : Holds m none [] := ⟨[], ⟨nodup_nil, rfl, rfl⟩, rfl⟩

/-- A circular list refines the sequence of its data. -/
theorem refines_new (m : Cells (Node ο)) (cs : List (Call ο)) : Refines m none [] cs :=
  (holds_new m).refines cs

end CLangProject.CircList

import CLangProject.Cells
import CLangProject.Doubly

/-!
# Doubly linked lists

`double_list.c` keeps a list by a pointer to any of its nodes. A function has no result if
it follows NULL, if it uses a node that has been freed, if a `Require` fails, or if a loop
exceeds its bound `fuel`.

`At` describes a list by the nodes before the one that the pointer leads to and those from
there on, with their data. The links of a node are set one at a time, and `View` says
what the memory looks like after each of these steps.
-/

namespace CLangProject.DoubleList

open List Option Function

structure Node (ο : Type) where
  data : ο
  next : Option Nat
  prev : Option Nat

variable {ο : Type} {m m' : Cells (Node ο)} {a b fuel : Nat} {p q : Option Nat} {l r : List Nat}
  {pre suf : List ο} {x : ο}

/-! ## Calls -/

def getNext (m : Cells (Node ο)) (a : Nat) : Option (Option Nat) := (m a).map Node.next

def getPrev (m : Cells (Node ο)) (a : Nat) : Option (Option Nat) := (m a).map Node.prev

def getData (m : Cells (Node ο)) (a : Nat) : Option ο := (m a).map Node.data

def setNext (m : Cells (Node ο)) (a : Nat) (p : Option Nat) : Option (Cells (Node ο)) :=
  m.modify a fun n => { n with next := p }

def setPrev (m : Cells (Node ο)) (a : Nat) (p : Option Nat) : Option (Cells (Node ο)) :=
  m.modify a fun n => { n with prev := p }

/-- `if (p != NULL) NEXT(p) = q` -/
def setNextOf (m : Cells (Node ο)) : (p q : Option Nat) → Option (Cells (Node ο))
  | none, _ => some m
  | some a, q => setNext m a q

/-- `if (p != NULL) PREV(p) = q` -/
def setPrevOf (m : Cells (Node ο)) : (p q : Option Nat) → Option (Cells (Node ο))
  | none, _ => some m
  | some a, q => setPrev m a q

/-- The new node has the address `newNode`. -/
def insert (m : Cells (Node ο)) (list : Option Nat) (newNode : Nat) (x : ο) :
    Option (Cells (Node ο) × Option Nat) := do
  let m ← m.alloc newNode ⟨x, none, none⟩
  match list with
  | none =>
    let m ← setPrev m newNode none
    some (← setNext m newNode none, some newNode)
  | some node =>
    let m ← setNext m newNode (some node)
    let m ← setPrev m newNode (← getPrev m node)
    let m ← setPrev m node (some newNode)
    some (← setNextOf m (← getPrev m newNode) (some newNode), some newNode)

/-- The last node, from `node` on. -/
def findLast (m : Cells (Node ο)) : (fuel node : Nat) → Option Nat
  | 0, _ => none
  | fuel + 1, node => do
    match ← getNext m node with
    | none => some node
    | some node => findLast m fuel node

def append (fuel : Nat) (m : Cells (Node ο)) (list : Option Nat) (newNode : Nat) (x : ο) :
    Option (Cells (Node ο) × Option Nat) := do
  let m ← m.alloc newNode ⟨x, none, none⟩
  match list with
  | none => some (m, some newNode)
  | some node =>
    let lastNode ← findLast m fuel node
    let m ← setNext m lastNode (some newNode)
    some (← setPrev m newNode (some lastNode), list)

/-- `while (iter < idx && nth != NULL) { nth = NEXT(nth); ++iter; }` -/
def forward (m : Cells (Node ο)) (idx : Int) : (fuel : Nat) → (iter : Int) → Option Nat →
    Option (Option Nat)
  | _, _, none => some none
  | 0, _, some _ => none
  | fuel + 1, iter, some node =>
    if iter < idx then do forward m idx fuel (iter + 1) (← getNext m node) else some (some node)

/-- `while (iter > idx && nth != NULL) { nth = PREV(nth); --iter; }` -/
def backward (m : Cells (Node ο)) (idx : Int) : (fuel : Nat) → (iter : Int) → Option Nat →
    Option (Option Nat)
  | _, _, none => some none
  | 0, _, some _ => none
  | fuel + 1, iter, some node =>
    if iter > idx then do backward m idx fuel (iter - 1) (← getPrev m node) else some (some node)

def nth (fuel : Nat) (m : Cells (Node ο)) (list : Option Nat) (idx : Int) : Option (Option Nat) :=
  if idx = 0 then none
  else
    match list with
    | none => some none
    | some node =>
      if idx > 0 then forward m idx fuel 1 (some node)
      else do backward m idx fuel (-1) (some (← findLast m fuel node))

def deleteNode (m : Cells (Node ο)) (list : Option Nat) (node : Nat) :
    Option (Cells (Node ο) × Option Nat) := do
  let prev ← getPrev m node
  let next ← getNext m node
  let m ← setNextOf m prev next
  let m ← setPrevOf m next prev
  let list := if some node = list then (if next ≠ none then next else prev) else list
  some (← m.free node, list)

/-- The memory, the list and the datum that has been deleted, if any. -/
def deleteHead (m : Cells (Node ο)) (list : Option Nat) :
    Option (Cells (Node ο) × Option Nat × Option ο) :=
  match list with
  | none => some (m, none, none)
  | some node => do
    let x ← getData m node
    let (m, list) ← deleteNode m list node
    some (m, list, some x)

/-- `p_list`, `pp_start` and `pp_end` are different variables; the last two are only read. -/
def cut (m : Cells (Node ο)) (list : Option Nat) (start end_ : Nat) :
    Option (Cells (Node ο) × Option Nat) := do
  let m ← setNextOf m (← getPrev m start) (← getNext m end_)
  let m ← setPrevOf m (← getNext m end_) (← getPrev m start)
  let list ← if list = some start then getNext m end_ else some list
  let m ← setNext m end_ none
  some (← setPrev m start none, list)

/-- The memory, the target and the source. -/
def paste (fuel : Nat) (m : Cells (Node ο)) (target source : Option Nat) :
    Option (Cells (Node ο) × Option Nat × Option Nat) :=
  match source, target with
  | none, _ => some (m, target, none)
  | some _, none => some (m, source, none)
  | some s, some t => do
    let lastnode ← (← nth fuel m source (-1))
    let m ← setNext m lastnode (← getNext m t)
    let m ← setPrevOf m (← getNext m t) (some lastnode)
    let m ← setPrev m s (some t)
    some (← setNext m t (some s), target, none)

/-! ## Links and data -/

/-- The links and the data of the live nodes. -/
structure View (m : Cells (Node ο)) (next prev : Nat → Option Nat) (data : Nat → Option ο) :
    Prop where
  next_eq : Cells.link Node.next m = next
  prev_eq : Cells.link Node.prev m = prev
  data_eq : getData m = data

theorem View.refl (m : Cells (Node ο)) : View m (Cells.link Node.next m) (Cells.link Node.prev m)
    (getData m) :=
  ⟨rfl, rfl, rfl⟩

theorem getData_update (n : Node ο) : getData (update m a (some n)) = update (getData m)
    a (some n.data) := by
  funext i
  by_cases hi : i = a
  · subst hi
    rw [getData, update_self, update_self, map_some]
  · rw [getData, update_of_ne hi, update_of_ne hi, getData]

namespace View

variable {next prev : Nat → Option Nat} {data : Nat → Option ο}

section

variable (h : View m next prev data)
include h

theorem exists_node (hx : data a = some x) : ∃ n, m a = some n ∧ n = ⟨x, next a, prev a⟩ := by
  rw [← h.data_eq, getData] at hx
  obtain ⟨n, hn, rfl⟩ := map_eq_some_iff.1 hx
  refine ⟨n, hn, ?_⟩
  rw [← h.next_eq, ← h.prev_eq, Cells.link_of_eq hn, Cells.link_of_eq hn]

theorem getNext_eq (hx : data a = some x) : getNext m a = some (next a) := by
  obtain ⟨n, hn, rfl⟩ := h.exists_node hx
  rw [getNext, hn, map_some]

theorem getPrev_eq (hx : data a = some x) : getPrev m a = some (prev a) := by
  obtain ⟨n, hn, rfl⟩ := h.exists_node hx
  rw [getPrev, hn, map_some]

theorem alloc (ha : m a = none) (x : ο) (p q : Option Nat) :
    ∃ m', m.alloc a ⟨x, p, q⟩ = some m' ∧ View m' (update next a p) (update prev a q)
      (update data a (some x)) := by
  obtain ⟨rfl, rfl, rfl⟩ := h
  exact ⟨_, Cells.alloc_eq ha, Cells.link_update .., Cells.link_update .., getData_update _⟩

theorem setNext (hx : data a = some x) (p : Option Nat) :
    ∃ m', DoubleList.setNext m a p = some m' ∧ View m' (redirect next (some a) p) prev data := by
  obtain ⟨n, hn, rfl⟩ := h.exists_node hx
  obtain ⟨rfl, rfl, rfl⟩ := h
  refine ⟨_, Cells.modify_eq hn, (Cells.link_update ..).trans (redirect_some ..).symm,
    (Cells.link_update ..).trans ?_, (getData_update _).trans ?_⟩
  · exact update_eq_self ..
  · rw [← hx, update_eq_self]

theorem setPrev (hx : data a = some x) (p : Option Nat) :
    ∃ m', DoubleList.setPrev m a p = some m' ∧ View m' next (redirect prev (some a) p) data := by
  obtain ⟨n, hn, rfl⟩ := h.exists_node hx
  obtain ⟨rfl, rfl, rfl⟩ := h
  refine ⟨_, Cells.modify_eq hn, (Cells.link_update ..).trans ?_, (Cells.link_update ..).trans
    (redirect_some ..).symm, (getData_update _).trans ?_⟩
  · exact update_eq_self ..
  · rw [← hx, update_eq_self]

theorem setNextOf (hp : ∀ a, p = some a → ∃ x, data a = some x) (q : Option Nat) :
    ∃ m', DoubleList.setNextOf m p q = some m' ∧ View m' (redirect next p q) prev data := by
  cases p with
  | none => exact ⟨m, rfl, h⟩
  | some a =>
    obtain ⟨x, hx⟩ := hp a rfl
    exact h.setNext hx q

theorem setPrevOf (hp : ∀ a, p = some a → ∃ x, data a = some x) (q : Option Nat) :
    ∃ m', DoubleList.setPrevOf m p q = some m' ∧ View m' next (redirect prev p q) data := by
  cases p with
  | none => exact ⟨m, rfl, h⟩
  | some a =>
    obtain ⟨x, hx⟩ := hp a rfl
    exact h.setPrev hx q

theorem free (hx : data a = some x) :
    ∃ m', m.free a = some m' ∧ View m' (update next a none) (update prev a none)
      (update data a none) := by
  obtain ⟨n, hn, rfl⟩ := h.exists_node hx
  obtain ⟨rfl, rfl, rfl⟩ := h
  refine ⟨_, Cells.free_eq hn, Cells.link_update .., Cells.link_update .., ?_⟩
  funext i
  by_cases hi : i = a
  · subst hi
    rw [getData, update_self, update_self, map_none]
  · rw [getData, update_of_ne hi, update_of_ne hi, getData]

end

end View

/-! ## Lists -/

/-- The list has the nodes `l` with the data `pre` before the node `p`, and the nodes `r` with
the data `suf` from there on. -/
structure At (m : Cells (Node ο)) (p : Option Nat) (l r : List Nat) (pre suf : List ο) : Prop where
  nodup : (l ++ r).Nodup
  links : Links (Cells.link Node.next m) (Cells.link Node.prev m) none (l ++ r) none
  pre_eq : l.map (getData m) = pre.map some
  suf_eq : r.map (getData m) = suf.map some
  handle : r.head? = p
  nonempty : r = [] → l = []

variable {L : List ο} {data : Nat → Option ο}

theorem exists_of_map (h : l.map data = L.map some) (ha : a ∈ l) : ∃ x, data a = some x := by
  have hmem : data a ∈ L.map some := h ▸ mem_map_of_mem ha
  obtain ⟨x, -, hx⟩ := mem_map.1 hmem
  exact ⟨x, hx.symm⟩

theorem map_update {d : Option ο} (h : l.map data = L.map some) (ha : ∀ b ∈ l, b ≠ a) :
    l.map (update data a d) = L.map some :=
  (map_congr_left fun b hb => update_of_ne (ha b hb) ..).trans h

namespace At

section

variable (h : At m p l r pre suf)
include h

theorem exists_data (ha : a ∈ l ++ r) : ∃ x, getData m a = some x := by
  rcases mem_append.1 ha with ha | ha
  · exact exists_of_map h.pre_eq ha
  · exact exists_of_map h.suf_eq ha

theorem notMem (ha : m a = none) : a ∉ l ++ r := fun hmem => by
  obtain ⟨x, hx⟩ := h.exists_data hmem
  rw [getData, ha] at hx
  cases hx

theorem insert (ha : m a = none) (x : ο) :
    ∃ m', DoubleList.insert m p a x = some (m', some a) ∧
      At m' (some a) l (a :: r) pre (x :: suf) := by
  have hal := h.notMem ha
  have hne : ∀ b ∈ l ++ r, b ≠ a := fun b hb heq => hal (heq ▸ hb)
  obtain ⟨m1, h1, v1⟩ := (View.refl m).alloc ha x none none
  have hdata : ∀ b ∈ l ++ r, ∃ y, update (getData m) a (some x) b = some y := fun b hb => by
    rw [update_of_ne (hne b hb)]
    exact h.exists_data hb
  have hxa : update (getData m) a (some x) a = some x := update_self ..
  have hnodup : (l ++ a :: r).Nodup := nodup_middle.2 (nodup_cons.2 ⟨hal, h.nodup⟩)
  have hpre := map_update (d := some x) h.pre_eq fun b hb => hne b (mem_append_left _ hb)
  have hsuf : (a :: r).map (update (getData m) a (some x)) = (x :: suf).map some := by
    rw [map_cons, hxa, map_update h.suf_eq fun b hb => hne b (mem_append_right _ hb), map_cons]
  cases r with
  | nil =>
    obtain rfl := h.nonempty rfl
    obtain rfl : none = p := h.handle
    obtain ⟨m2, h2, v2⟩ := v1.setPrev hxa none
    obtain ⟨m3, h3, v3⟩ := v2.setNext hxa none
    refine ⟨m3, by simp [DoubleList.insert, h1, h2, h3], hnodup, ?_, by rw [v3.data_eq]; exact hpre,
      by rw [v3.data_eq]; exact hsuf, rfl, by simp⟩
    rw [v3.next_eq, v3.prev_eq]
    simp [Links, redirect]
  | cons b r =>
    obtain rfl : some b = p := h.handle
    obtain ⟨y, hb⟩ := hdata b (by simp)
    have hba : b ≠ a := hne b (by simp)
    have hprevb : Cells.link Node.prev m b = l.getLast? := by
      have := (links_append.1 h.links).2.1
      rwa [or_none] at this
    obtain ⟨m2, h2, v2⟩ := v1.setNext hxa (some b)
    have hget := v2.getPrev_eq hb
    rw [update_of_ne hba, hprevb] at hget
    obtain ⟨m3, h3, v3⟩ := v2.setPrev hxa l.getLast?
    obtain ⟨m4, h4, v4⟩ := v3.setPrev hb (some a)
    have hget' := v4.getPrev_eq hxa
    simp only [redirect, some.injEq, if_neg hba, if_true] at hget'
    obtain ⟨m5, h5, v5⟩ := v4.setNextOf (p := l.getLast?)
      (fun z hz => hdata z (mem_append_left _ (mem_of_getLast? hz))) (some a)
    refine ⟨m5, by simp [DoubleList.insert, h1, h2, hget, h3, h4, hget', h5], hnodup, ?_,
      by rw [v5.data_eq]; exact hpre, by rw [v5.data_eq]; exact hsuf, rfl, by simp⟩
    rw [v5.next_eq, v5.prev_eq]
    have hbl : ∀ c ∈ l, c ≠ b := fun c hc heq =>
      (nodup_append.1 h.nodup).2.2 c hc b mem_cons_self heq
    have hlast : ∀ c ∈ a :: b :: r, l.getLast? ≠ some c := fun c hc heq =>
      (nodup_append.1 hnodup).2.2 c (mem_of_getLast? heq) c hc rfl
    refine h.links.insert h.nodup (fun c hc => ?_) (fun c hc => ?_) (fun c hc => ?_)
      (fun c hc => ?_) ?_ ?_
    · have hca := hne c (mem_append_left _ hc)
      simp [redirect, hca, Ne.symm hca]
    · have hca := hne c (mem_append_left _ hc)
      simp [redirect, hca, Ne.symm hca, (hbl c hc).symm]
    · have hca := hne c (mem_append_right _ hc)
      simp [redirect, hca, Ne.symm hca, hlast c (mem_cons_of_mem a hc)]
    · have hca := hne c (mem_append_right _ hc)
      simp [redirect, hca, Ne.symm hca]
    · simp [redirect, hlast a mem_cons_self]
    · simp [redirect, hba]

end

end At

/-! ## Walks along a list -/

section Walk

variable {next prev : Nat → Option Nat} {data : Nat → Option ο} (v : View m next prev data)

include v

theorem findLast_eq (h : Links next prev q (a :: r) none)
    (hdata : ∀ b ∈ a :: r, ∃ x, data b = some x) (hfuel : r.length < fuel) :
    findLast m fuel a = some (r.getLastD a) := by
  induction r generalizing a q fuel with
  | nil =>
    obtain ⟨fuel, rfl⟩ := Nat.exists_eq_add_one_of_ne_zero (Nat.ne_of_gt hfuel)
    obtain ⟨x, hx⟩ := hdata a mem_cons_self
    have hnext : getNext m a = some none := (v.getNext_eq hx).trans (congrArg some h.2.1)
    simp [findLast, hnext]
  | cons b r ih =>
    rw [length_cons] at hfuel
    obtain ⟨fuel, rfl⟩ := Nat.exists_eq_add_one_of_ne_zero (show fuel ≠ 0 by omega)
    obtain ⟨⟨x, hx⟩, hdata⟩ := forall_mem_cons.1 hdata
    have hnext : getNext m a = some (some b) := (v.getNext_eq hx).trans (congrArg some h.2.1)
    have ih := ih h.2.2 hdata (Nat.lt_of_succ_lt_succ hfuel)
    rw [getLastD_cons]
    simp [findLast, hnext, ih]

theorem forward_eq (iter : Int) (k : Nat) (h : Links next prev q r none)
    (hdata : ∀ b ∈ r, ∃ x, data b = some x) (hfuel : r.length ≤ fuel) :
    forward m (iter + k) fuel iter r.head? = some r[k]? := by
  induction r generalizing q fuel iter k with
  | nil => simp [forward]
  | cons a r ih =>
    rw [length_cons] at hfuel
    obtain ⟨fuel, rfl⟩ := Nat.exists_eq_add_one_of_ne_zero (show fuel ≠ 0 by omega)
    obtain ⟨⟨x, hx⟩, hdata⟩ := forall_mem_cons.1 hdata
    rw [List.head?_cons, forward]
    cases k with
    | zero => exact if_neg (by omega)
    | succ k =>
      have hnext : getNext m a = some r.head? := by rw [v.getNext_eq hx, h.2.1, or_none]
      have ih := ih (iter + 1) k h.2.2 hdata (Nat.le_of_succ_le_succ hfuel)
      rw [Int.add_assoc, Int.add_comm 1] at ih
      rw [if_pos (by omega), hnext]
      exact ih

theorem backward_eq (iter : Int) (k : Nat) (h : Links next prev none l q)
    (hdata : ∀ b ∈ l, ∃ x, data b = some x) (hfuel : l.length ≤ fuel) :
    backward m (iter - k) fuel iter l.getLast? = some l.reverse[k]? := by
  induction l using List.reverseRecOn generalizing q fuel iter k with
  | nil => simp [backward]
  | append_singleton l a ih =>
    rw [length_append, length_singleton] at hfuel
    obtain ⟨fuel, rfl⟩ := Nat.exists_eq_add_one_of_ne_zero (show fuel ≠ 0 by omega)
    obtain ⟨x, hx⟩ := hdata a (by simp)
    obtain ⟨hl, hprev, -⟩ := links_concat.1 h
    rw [List.getLast?_concat, backward, reverse_concat]
    cases k with
    | zero => exact if_neg (by omega)
    | succ k =>
      have hget : getPrev m a = some l.getLast? := by rw [v.getPrev_eq hx, hprev, or_none]
      have ih := ih (iter - 1) k hl (fun b hb => hdata b (mem_append_left _ hb))
        (Nat.le_of_succ_le_succ hfuel)
      rw [Int.sub_sub, Int.add_comm 1] at ih
      rw [if_pos (by omega), hget]
      exact ih

end Walk

namespace At

theorem append (h : At m p l r pre suf) (ha : m a = none) (x : ο) : ∃ m',
    Ends (DoubleList.append · m p a x) (m', (r ++ [a]).head?) ∧
      At m' (r ++ [a]).head? l (r ++ [a]) pre (suf ++ [x]) := by
  have hal := h.notMem ha
  have hne : ∀ b ∈ l ++ r, b ≠ a := fun b hb heq => hal (heq ▸ hb)
  obtain ⟨m1, h1, v1⟩ := (View.refl m).alloc ha x none none
  have hdata : ∀ b ∈ l ++ r, ∃ y, update (getData m) a (some x) b = some y := fun b hb => by
    rw [update_of_ne (hne b hb)]
    exact h.exists_data hb
  have hxa : update (getData m) a (some x) a = some x := update_self ..
  have hnodup : (l ++ (r ++ [a])).Nodup := by
    rw [← append_assoc]
    exact (perm_append_singleton a (l ++ r)).nodup_iff.2 (nodup_cons.2 ⟨hal, h.nodup⟩)
  have hpre := map_update (d := some x) h.pre_eq fun b hb => hne b (mem_append_left _ hb)
  have hsuf : (r ++ [a]).map (update (getData m) a (some x)) = (suf ++ [x]).map some := by
    rw [map_append, map_update h.suf_eq fun b hb => hne b (mem_append_right _ hb),
      map_singleton, hxa, map_append, map_singleton]
  cases r with
  | nil =>
    obtain rfl := h.nonempty rfl
    obtain rfl : none = p := h.handle
    refine ⟨m1, ⟨0, fun fuel _ => by simp [DoubleList.append, h1]⟩, hnodup,
      ?_, by rw [v1.data_eq]; exact hpre, by rw [v1.data_eq]; exact hsuf, rfl, by simp⟩
    rw [v1.next_eq, v1.prev_eq]
    simp [Links]
  | cons b r =>
    obtain rfl : some b = p := h.handle
    obtain ⟨z, hzb⟩ : ∃ z, r.getLastD b = z := ⟨_, rfl⟩
    have hlast : (l ++ b :: r).getLast? = some z := by
      rw [List.getLast?_append_of_ne_nil _ (by simp), List.getLast?_cons, ← hzb,
        getLastD_eq_getLast?]
    have hzmem : z ∈ l ++ b :: r := mem_of_getLast? hlast
    obtain ⟨y, hy⟩ := hdata z hzmem
    -- the last node is found in the list with the new node apart from it
    have hlinks :
        Links (update (Cells.link Node.next m) a none) (update (Cells.link Node.prev m) a none) none
        (l ++ b :: r) none :=
      h.links.congr (fun c hc => update_of_ne (hne c hc) ..) fun c hc => update_of_ne (hne c hc) ..
    obtain ⟨m2, h2, v2⟩ := v1.setNext hy (some a)
    obtain ⟨m3, h3, v3⟩ := v2.setPrev hxa (some z)
    refine ⟨m3, ⟨r.length + 1, fun fuel hfuel => ?_⟩, hnodup, ?_, by rw [v3.data_eq]; exact hpre,
      by rw [v3.data_eq]; exact hsuf, rfl, by simp⟩
    · have hfind := findLast_eq v1 (links_append.1 hlinks).2
        (fun c hc => hdata c (mem_append_right _ hc)) hfuel
      rw [hzb] at hfind
      simp [DoubleList.append, h1, hfind, h2, h3]
    · rw [v3.next_eq, v3.prev_eq, ← append_assoc]
      have hlinks' := hlinks
      rw [← append_nil (l ++ b :: r)] at hlinks'
      have hza := hne z hzmem
      refine hlinks'.insert (by rw [append_nil]; exact h.nodup) (fun c hc => ?_) (fun c hc => ?_)
        (by simp) (by simp) ?_ ?_
      · rw [hlast]
        rfl
      · simp [redirect, Ne.symm (hne c hc)]
      · simp [redirect, hza]
      · rw [hlast]
        simp [redirect]

/-- The node at the index, forwards from the pointer or backwards from the end. -/
theorem nth (h : At m p l r pre suf) : (∀ k : Nat, Ends (DoubleList.nth · m p (k + 1)) r[k]?) ∧
      ∀ k : Nat, Ends (DoubleList.nth · m p (-(k + 1))) (l ++ r).reverse[k]? := by
  have hdata : ∀ b ∈ l ++ r, ∃ x, getData m b = some x := fun b hb => h.exists_data hb
  have hdatar : ∀ b ∈ r, ∃ x, getData m b = some x := fun b hb => hdata b (mem_append_right _ hb)
  have hlinks := (links_append.1 h.links).2
  constructor
  · refine fun k => ⟨r.length, fun fuel hfuel => ?_⟩
    have hforward := forward_eq (View.refl m) 1 k hlinks hdatar hfuel
    rw [h.handle, Int.add_comm] at hforward
    have hzero : (k : Int) + 1 ≠ 0 := by omega
    have hpos : (0 : Int) < k + 1 := by omega
    cases p with
    | none =>
      simp only [DoubleList.nth, if_neg hzero, List.head?_eq_none_iff.1 h.handle, List.getElem?_nil]
    | some a => simpa only [DoubleList.nth, if_neg hzero, gt_iff_lt, if_pos hpos] using hforward
  · refine fun k => ⟨(l ++ r).length, fun fuel hfuel => ?_⟩
    have hbackward := backward_eq (View.refl m) (-1) k h.links hdata hfuel
    rw [show (-1 : Int) - k = -(k + 1) by omega] at hbackward
    have hzero : -((k : Int) + 1) ≠ 0 := by omega
    have hneg : ¬ (0 : Int) < -(k + 1) := by omega
    cases p with
    | none =>
      obtain rfl := List.head?_eq_none_iff.1 h.handle
      simp only [DoubleList.nth, if_neg hzero, h.nonempty rfl, append_nil, reverse_nil,
        List.getElem?_nil]
    | some a =>
      obtain ⟨r, rfl⟩ := List.head?_eq_some_iff.1 h.handle
      rw [length_append, length_cons] at hfuel
      have hfind := findLast_eq (View.refl m) hlinks hdatar (show r.length < fuel by omega)
      have hlast : (l ++ a :: r).getLast? = some (r.getLastD a) := by
        rw [List.getLast?_append_of_ne_nil _ (by simp), List.getLast?_cons, getLastD_eq_getLast?]
      rw [hlast] at hbackward
      simpa only [DoubleList.nth, if_neg hzero, if_neg hneg, gt_iff_lt, hfind, bind_eq_bind,
        bind_some] using hbackward

theorem deleteHead_links (h : At m p l (a :: r) pre (x :: suf)) : ∃ m',
    deleteHead m p = some (m', (if r.head? ≠ none then r.head? else l.getLast?), some x) ∧
      Links (Cells.link Node.next m') (Cells.link Node.prev m') none (l ++ r) none ∧
      ∀ b ∈ l ++ r, getData m' b = getData m b := by
  obtain rfl : some a = p := h.handle
  have hsub : ∀ b ∈ l ++ r, b ∈ l ++ a :: r := ((sublist_cons_self a r).append_left l).subset
  have hnodup := nodup_cons.1 (nodup_middle.1 h.nodup)
  have hne : ∀ b ∈ l ++ r, b ≠ a := fun b hb heq => hnodup.1 (heq ▸ hb)
  have hdisj := (nodup_append.1 hnodup.2).2.2
  have hxa : getData m a = some x := (List.cons.inj h.suf_eq).1
  have hlinks := (links_append.1 h.links).2
  have hnext : Cells.link Node.next m a = r.head? := by
    have := hlinks.2.1
    rwa [or_none] at this
  have hprev : Cells.link Node.prev m a = l.getLast? := by
    have := hlinks.1
    rwa [or_none] at this
  have hgetNext := (View.refl m).getNext_eq hxa
  have hgetPrev := (View.refl m).getPrev_eq hxa
  rw [hnext] at hgetNext
  rw [hprev] at hgetPrev
  obtain ⟨m1, h1, v1⟩ := (View.refl m).setNextOf (p := l.getLast?)
    (fun z hz => h.exists_data (mem_append_left _ (mem_of_getLast? hz))) r.head?
  obtain ⟨m2, h2, v2⟩ := v1.setPrevOf (p := r.head?)
    (fun z hz => h.exists_data (hsub z (mem_append_right _ (mem_of_head? hz)))) l.getLast?
  obtain ⟨m3, h3, v3⟩ := v2.free hxa
  refine ⟨m3, by simp [deleteHead, deleteNode, hxa, hgetNext, hgetPrev, h1, h2, h3], ?_,
    fun b hb => ?_⟩
  · rw [v3.next_eq, v3.prev_eq]
    refine h.links.remove h.nodup (fun b hb => ?_) (fun b hb => ?_) (fun b hb => ?_) fun b hb => ?_
    · rw [update_of_ne (hne b (mem_append_left _ hb)), or_none]
      rfl
    · have hhead : r.head? ≠ some b := fun heq => hdisj b hb b (mem_of_head? heq) rfl
      rw [update_of_ne (hne b (mem_append_left _ hb))]
      exact if_neg hhead
    · have hlast : l.getLast? ≠ some b := fun heq => hdisj b (mem_of_getLast? heq) b hb rfl
      rw [update_of_ne (hne b (mem_append_right _ hb))]
      exact if_neg hlast
    · rw [update_of_ne (hne b (mem_append_right _ hb)), or_none]
      rfl
  · rw [v3.data_eq, update_of_ne (hne b hb)]

theorem deleteHead_cons (h : At m p l (a :: b :: r) pre (x :: suf)) : ∃ m',
    deleteHead m p = some (m', some b, some x) ∧ At m' (some b) l (b :: r) pre suf := by
  obtain ⟨m', hm', hlinks, hdata⟩ := h.deleteHead_links
  refine ⟨m', hm', h.nodup.sublist ((sublist_cons_self a _).append_left l), hlinks, ?_,
    ?_, rfl, nofun⟩
  · rw [← h.pre_eq]
    exact map_congr_left fun c hc => hdata c (mem_append_left _ hc)
  · rw [← (List.cons.inj h.suf_eq).2]
    exact map_congr_left fun c hc => hdata c (mem_append_right _ hc)

/-- After the last node has been deleted the pointer leads to the one before it. -/
theorem deleteHead_single (h : At m p l [a] pre [x]) : ∃ m',
    deleteHead m p = some (m', l.getLast?, some x) ∧
      At m' l.getLast? l.dropLast l.getLast?.toList pre.dropLast pre.getLast?.toList := by
  obtain ⟨m', hm', hlinks, hdata⟩ := h.deleteHead_links
  refine ⟨m', hm', ?_⟩
  have hnodup := (nodup_append.1 h.nodup).1
  have hpre : l.map (getData m') = pre.map some := by
    rw [← h.pre_eq]
    exact map_congr_left fun c hc => hdata c (mem_append_left _ hc)
  rw [append_nil] at hlinks
  cases l using List.reverseRecOn with
  | nil =>
    obtain rfl : pre = [] := by simpa using hpre.symm
    exact ⟨nodup_nil, trivial, rfl, rfl, rfl, fun _ => rfl⟩
  | append_singleton l z =>
    cases pre using List.reverseRecOn with
    | nil => simp at hpre
    | append_singleton pre y =>
      rw [map_append, map_append] at hpre
      obtain ⟨hpre, hy⟩ := append_inj' hpre rfl
      simp only [List.getLast?_concat, dropLast_concat, toList_some]
      exact ⟨hnodup, hlinks, hpre, hy, rfl, nofun⟩

end At

/-- The calls on a list whose pointer leads to any of its nodes. -/
theorem zipper_calls (m : Cells (Node ο)) (p : Option Nat) (l r : List Nat) (pre suf : List ο)
    (h : At m p l r pre suf) :
    (∀ a x, m a = none →
      ∃ m', insert m p a x = some (m', some a) ∧ At m' (some a) l (a :: r) pre (x :: suf)) ∧
    (∀ a x, m a = none →
      ∃ m' p', Ends (append · m p a x) (m', p') ∧ At m' p' l (r ++ [a]) pre (suf ++ [x])) ∧
    (∀ x t, suf = x :: t → ∃ m' p', deleteHead m p = some (m', p', some x) ∧
      (t ≠ [] → At m' p' l r.tail pre t) ∧
      (t = [] → p' = l.getLast? ∧ At m' p' l.dropLast l.getLast?.toList pre.dropLast
        pre.getLast?.toList)) ∧
    (suf = [] → deleteHead m p = some (m, p, none)) ∧
    (∀ i : Int, 0 < i → Ends (nth · m p i) r[(i - 1).toNat]?) ∧
    ∀ i : Int, i < 0 → Ends (nth · m p i) (l ++ r).reverse[(-i - 1).toNat]? := by
  refine ⟨fun a x ha => h.insert ha x, fun a x ha => ?_, fun x t hsuf => ?_, fun hsuf => ?_,
    fun i hi => ?_,
    fun i hi => ?_⟩
  · obtain ⟨m', hm', hat⟩ := h.append ha x
    exact ⟨m', _, hm', hat⟩
  · subst hsuf
    have hsuf := h.suf_eq
    cases r with
    | nil => cases hsuf
    | cons a r =>
      cases r with
      | nil =>
        obtain rfl : t = [] := by simpa using (List.cons.inj hsuf).2.symm
        obtain ⟨m', hm', hat⟩ := h.deleteHead_single
        exact ⟨m', _, hm', fun hne => (hne rfl).elim, fun _ => ⟨rfl, hat⟩⟩
      | cons b r =>
        obtain ⟨m', hm', hat⟩ := h.deleteHead_cons
        refine ⟨m', _, hm', fun _ => hat, fun hnil => ?_⟩
        subst hnil
        simp at hsuf
  · subst hsuf
    obtain rfl : r = [] := by simpa using h.suf_eq
    obtain rfl : none = p := h.handle
    rfl
  · have := h.nth.1 (i - 1).toNat
    rwa [show ((i - 1).toNat : Int) + 1 = i by omega] at this
  · have := h.nth.2 (-i - 1).toNat
    rwa [show -(((-i - 1).toNat : Int) + 1) = i by omega] at this

/-- The list 1, 2. -/
def oneTwo : Cells (Node Nat)
  | 0 => some ⟨1, some 1, none⟩
  | 1 => some ⟨2, none, some 0⟩
  | _ => none

theorem zipper_calls_oneTwo : At oneTwo (some 1) [0] [1] [1] [2] ∧
    ∃ m' p', deleteHead oneTwo (some 1) = some (m', p', some 2) ∧ p' = some 0 ∧
      At m' p' [] [0] [] [1] := by
  have hat : At oneTwo (some 1) [0] [1] [1] [2] :=
    ⟨by decide, ⟨rfl, rfl, rfl, rfl, trivial⟩, rfl, rfl, rfl, nofun⟩
  obtain ⟨m', p', hm', -, hlast⟩ :=
    (zipper_calls oneTwo (some 1) [0] [1] [1] [2] hat).2.2.1 2 [] rfl
  exact ⟨hat, m', p', hm', hlast rfl⟩

end CLangProject.DoubleList

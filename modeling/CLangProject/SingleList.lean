import CLangProject.CircList

/-!
# Singly linked lists

The calls of `list.c` that the graph and the list stack are made of. A list is a pointer to its
first node, and a call that gets the address of a list variable returns the new value of the
variable. The answer of the allocator to a request is an argument: the address of the new node, or
`none` if `Memory_Failed` is raised. `checks` says whether `Require` and `Ensure` are compiled in.

A call has no result if it follows NULL, if it uses a node that has been freed, or if a loop exceeds
its bound `fuel`. `IsList` describes a list by its nodes and its data; each call has one lemma that
says what the list is afterwards and that nothing else has changed.
-/

namespace CLangProject.SingleList

open Option Function
open CircList (Node step data next setNext)

inductive Exc where
  | memoryFailed | preconditionFailed | postconditionFailed
deriving Repr, DecidableEq

variable {ο : Type} {m m' : Cells (Node ο)} {a b : Nat} {p : Option Nat} {l r : List Nat}
    {xs ys : List ο} {x : ο} {checks : Bool}

/-! ## Calls -/

/-- `List__allocate_node` -/
def allocateNode (m : Cells (Node ο)) (answer : Option Nat) (x : ο) :
    Option (Except Exc Nat × Cells (Node ο)) :=
  match answer with
  | none => some (.error .memoryFailed, m)
  | some pNode => (m.alloc pNode ⟨x, none⟩).map (.ok pNode, ·)

def insert (m : Cells (Node ο)) (list answer : Option Nat) (x : ο) :
    Option (Except Exc (Option Nat) × Cells (Node ο)) := do
  match ← allocateNode m answer x with
  | (.error e, m) => some (.error e, m)
  | (.ok pNode, m) => some (.ok (some pNode), ← setNext m pNode list)

/-- The last node, by the loop of `List_append`. -/
def lastNode (m : Cells (Node ο)) : (fuel iterNode : Nat) → Option Nat
  | 0, _ => none
  | fuel + 1, iterNode => do
    match ← next m iterNode with
    | none => some iterNode
    | some n => lastNode m fuel n

def append (fuel : Nat) (m : Cells (Node ο)) (list answer : Option Nat) (x : ο) :
    Option (Except Exc (Option Nat) × Cells (Node ο)) := do
  match ← allocateNode m answer x with
  | (.error e, m) => some (.error e, m)
  | (.ok pNode, m) =>
    match list with
    | none => some (.ok (some pNode), m)
    | some first => some (.ok (some first), ← setNext m (← lastNode m fuel first) (some pNode))

/-- The node before `pNode`, NULL if there is none, by the loop of `List_delete_node`. -/
def findPrev (m : Cells (Node ο)) (pNode : Nat) : (fuel : Nat) → (iterNode : Option Nat) →
    Option (Option Nat)
  | 0, _ => none
  | _ + 1, none => some none
  | fuel + 1, some iterNode => do
    let n ← next m iterNode
    if n = some pNode then some (some iterNode) else findPrev m pNode fuel n

def deleteNode (checks : Bool) (fuel : Nat) (m : Cells (Node ο)) (list : Option Nat) (pNode : Nat) :
    Option (Except Exc (Option Nat) × Cells (Node ο)) := do
  if list = some pNode then
    let list ← next m pNode
    some (.ok list, ← m.free pNode)
  else
    match ← findPrev m pNode fuel list with
    | none => if checks then some (.error .postconditionFailed, m) else none
    | some iterNode =>
      let m ← setNext m iterNode (← next m pNode)
      some (.ok list, ← m.free pNode)

/-- The list and the datum that has been deleted, if any. -/
def deleteHead (checks : Bool) (fuel : Nat) (m : Cells (Node ο)) (list : Option Nat) :
    Option (Except Exc (Option Nat × Option ο) × Cells (Node ο)) :=
  match list with
  | none => some (.ok (none, none), m)
  | some first => do
    let x ← data m first
    match ← deleteNode checks fuel m list first with
    | (.error e, m) => some (.error e, m)
    | (.ok list, m) => some (.ok (list, some x), m)

def iterator (m : Cells (Node ο)) (list lastReturn : Option Nat) : Option (Option Nat) :=
  match lastReturn with
  | none => some list
  | some i => next m i

def length (m : Cells (Node ο)) : (fuel : Nat) → (list : Option Nat) → Option Nat
  | 0, _ => none
  | _ + 1, none => some 0
  | fuel + 1, some i => do some ((← length m fuel (← next m i)) + 1)

/-- The loop of `List_find_key`. Comparing may follow the datum, which is a pointer. -/
def findLoop (m : Cells (Node ο)) (list : Option Nat) (equal : ο → Option Bool) :
    (fuel : Nat) → (curr : Option Nat) → Option (Option Nat)
  | 0, _ => none
  | fuel + 1, curr => do
    match ← iterator m list curr with
    | none => some none
    | some i => if ← equal (← data m i) then some (some i) else findLoop m list equal fuel (some i)

/-- The node that has been found, if any. -/
def findKey (checks : Bool) (fuel : Nat) (m : Cells (Node ο)) (list : Option Nat)
    (equal : ο → Option Bool) :
    Option (Except Exc (Option Nat)) :=
  if checks ∧ list = none then some (.error .preconditionFailed)
  else (findLoop m list equal fuel none).map .ok

/-! ## Lists in memory -/

theorem step_congr (h : m' a = m b) :
    step m' a = step m b := by rw [step, step, Cells.link, Cells.link, h]

theorem data_congr (h : m' a = m b) : data m' a = data m b := by rw [data, data, h]

/-- The list `p` has the nodes `l` and the data `xs`. -/
structure IsList (m : Cells (Node ο)) (p : Option Nat) (l : List Nat) (xs : List ο) : Prop where
  path : Path (step m) p l none
  data : l.map (data m) = xs.map some
  nodup : l.Nodup

namespace IsList

theorem nil : IsList m none [] ([] : List ο) := ⟨rfl, rfl, List.nodup_nil⟩

theorem length_eq (h : IsList m p l xs) : l.length = xs.length := by
  simpa using congrArg List.length h.data

theorem congr (h : IsList m p l xs) (heq : ∀ a ∈ l, m' a = m a) : IsList m' p l xs where
  path := h.path.congr fun a ha => step_congr (heq a ha)
  data := by
    rw [← h.data]
    exact List.map_congr_left fun a ha => data_congr (heq a ha)
  nodup := h.nodup

theorem cons_iff : IsList m p (a :: l) (x :: xs) ↔
    p = some a ∧ (∃ q, m a = some ⟨x, q⟩ ∧ IsList m q l xs) ∧ a ∉ l := by
  constructor
  · rintro ⟨⟨hp, hpath⟩, hdata, hnodup⟩
    obtain ⟨ha, htail⟩ := List.cons.inj hdata
    obtain ⟨hal, hnodup⟩ := List.nodup_cons.1 hnodup
    obtain ⟨n, hn, rfl⟩ := map_eq_some_iff.1 ha
    refine ⟨hp, ⟨n.next, hn, ?_, htail, hnodup⟩, hal⟩
    rwa [step, Cells.link_of_eq hn] at hpath
  · rintro ⟨rfl, ⟨q, ha, hl⟩, hal⟩
    refine ⟨⟨rfl, ?_⟩, ?_, List.nodup_cons.2 ⟨hal, hl.nodup⟩⟩
    · rw [step, Cells.link_of_eq ha]
      exact hl.path
    · rw [List.map_cons, List.map_cons, hl.data, CircList.data, ha]
      rfl

theorem exists_cons (h : IsList m p (a :: l) xs) : ∃ y ys, xs = y :: ys := by
  cases xs with
  | nil => cases h.data
  | cons y ys => exact ⟨y, ys, rfl⟩

theorem ne_none (h : IsList m p l xs) (ha : a ∈ l) : m a ≠ none := by
  intro hnone
  have hmem : CircList.data m a ∈ xs.map some := h.data ▸ List.mem_map_of_mem ha
  obtain ⟨y, -, hy⟩ := List.mem_map.1 hmem
  rw [CircList.data, hnone] at hy
  cases hy

theorem notMem (h : IsList m p l xs) (ha : m a = none) : a ∉ l := fun hmem => h.ne_none hmem ha

/-! ## Each call -/

/-- `List_insert` puts a new node in front. -/
theorem insert_eq (h : IsList m p l xs) (ha : m a = none) (x : ο) :
    insert m p (some a) x = some (.ok (some a), update m a (some ⟨x, p⟩)) ∧
      IsList (update m a (some ⟨x, p⟩)) (some a) (a :: l) (x :: xs) := by
  have hal := h.notMem ha
  refine ⟨?_, cons_iff.2 ⟨rfl, ⟨p, update_self .., h.congr fun b hb => ?_⟩, hal⟩⟩
  · simp only [insert, allocateNode, Cells.alloc_eq ha, setNext, Cells.modify,
      update_self, update_idem, map_some, bind_eq_bind, bind_some]
  · exact update_of_ne (ne_of_mem_of_not_mem hb hal) ..

/-- The loop of `List_append` on a list that is not empty. -/
theorem ends_lastNode (h : IsList m (some b) (l ++ [a]) xs) : Ends (lastNode m · b) a := by
  induction l generalizing b xs with
  | nil =>
    obtain ⟨y, ys, rfl⟩ := h.exists_cons
    obtain ⟨hb, ⟨q, ha, hq⟩, -⟩ := cons_iff.1 h
    obtain rfl := some.inj hb
    obtain rfl : q = none := hq.path
    exact .of_succ fun fuel => by simp [lastNode, next, ha]
  | cons c l ih =>
    obtain ⟨y, ys, rfl⟩ := h.exists_cons
    obtain ⟨hb, ⟨q, hc, hq⟩, -⟩ := cons_iff.1 h
    obtain rfl := some.inj hb
    obtain ⟨d, rfl⟩ : ∃ d, q = some d := by
      cases l with
      | nil => exact ⟨_, hq.path.1⟩
      | cons e l => exact ⟨_, hq.path.1⟩
    exact (ih hq).step fun fuel => by simp [lastNode, next, hc]

/-- `List_append` puts a new node at the end. -/
theorem ends_append (h : IsList m p l xs) (ha : m a = none) (x : ο) :
    ∃ p' m', Ends (append · m p (some a) x) (.ok p', m') ∧ IsList m' p' (l ++ [a]) (xs ++ [x]) ∧
      ∀ b, b ∉ l → b ≠ a → m' b = m b := by
  have hal := h.notMem ha
  have hnew : IsList (update m a (some ⟨x, none⟩)) p l xs :=
    h.congr fun b hb => update_of_ne (ne_of_mem_of_not_mem hb hal) ..
  have halloc : allocateNode m (some a) x = some (.ok a, update m a (some ⟨x, none⟩)) := by
    rw [allocateNode, Cells.alloc_eq ha, map_some]
  rcases List.eq_nil_or_concat l with rfl | ⟨l, c, rfl⟩
  · obtain rfl : p = none := h.path
    obtain rfl : xs = [] := List.length_eq_zero_iff.1 h.length_eq.symm
    refine ⟨some a, _, .of_eq fun fuel => by simp only [append, halloc, bind_eq_bind, bind_some],
      cons_iff.2 ⟨rfl, ⟨none, update_self .., .nil⟩, List.not_mem_nil⟩, fun b _ hb =>
        update_of_ne hb ..⟩
  · rw [List.concat_eq_append] at *
    obtain ⟨f, rfl⟩ : ∃ f, p = some f := by
      cases l with
      | nil | cons e l => exact ⟨_, h.path.1⟩
    have hca : c ≠ a := fun heq => hal (by simp [heq])
    obtain ⟨n, hn⟩ := ne_none_iff_exists'.1 (h.ne_none (a := c) (by simp))
    have hset : setNext (update m a (some ⟨x, none⟩)) c (some a) =
        some (update (update m a (some ⟨x, none⟩)) c (some ⟨n.data, some a⟩)) :=
      Cells.modify_eq (by rw [update_of_ne hca, hn])
    have hsame : ∀ b, b ≠ c → b ≠ a →
        update (update m a (some ⟨x, none⟩)) c (some ⟨n.data, some a⟩) b = m b :=
      fun b hbc hba => by
      rw [update_of_ne hbc, update_of_ne hba]
    have hlc : ∀ b ∈ l, b ≠ c := fun b hb heq =>
      (List.nodup_append.1 h.nodup).2.2 b hb c (List.mem_singleton_self _) heq
    have hla : ∀ b ∈ l, b ≠ a := fun b hb heq => hal (by simp [← heq, hb])
    refine ⟨some f, _, ?_, ⟨?_, ?_, ?_⟩, fun b hb => hsame b fun heq => hb (by simp [heq])⟩
    · obtain ⟨bound, hbound⟩ := hnew.ends_lastNode
      refine ⟨bound, fun fuel hfuel => ?_⟩
      simp only [append, halloc, hbound fuel hfuel, hset, bind_eq_bind, bind_some]
    · rw [CircList.step_update, CircList.step_update]
      refine h.path.snoc (fun b hb => ?_) (update_self ..) ?_
      · rw [update_of_ne (hlc b hb), update_of_ne (hla b hb)]
      · rw [update_of_ne (Ne.symm hca), update_self]
    · rw [CircList.data_update, CircList.data_update, List.map_append, @List.map_append _ _ _ xs,
        ← h.data]
      congr 1
      · refine List.map_congr_left fun b hb => ?_
        by_cases hbc : b = c
        · rw [hbc, update_self, CircList.data, hn, map_some]
        · rw [update_of_ne hbc, update_of_ne fun heq : b = a => hal (heq ▸ hb)]
      · rw [List.map_singleton, List.map_singleton, update_of_ne (Ne.symm hca), update_self]
    · exact List.nodup_append.2 ⟨h.nodup, List.nodup_singleton a, fun b hb d hd heq =>
        hal (by rwa [← List.mem_singleton.1 hd, ← heq])⟩

theorem ends_findPrev (h : IsList m p (l ++ [b] ++ a :: r) xs) :
    Ends (findPrev m a · p) (some b) := by
  induction l generalizing p xs with
  | nil =>
    obtain ⟨y, ys, rfl⟩ := h.exists_cons
    obtain ⟨rfl, ⟨q, hb, hq⟩, -⟩ := cons_iff.1 h
    obtain rfl : q = some a := hq.path.1
    exact .of_succ fun fuel => by simp [findPrev, next, hb]
  | cons c l ih =>
    obtain ⟨y, ys, rfl⟩ := h.exists_cons
    obtain ⟨rfl, ⟨q, hc, hq⟩, -⟩ := cons_iff.1 h
    have hqa : q ≠ some a := by
      rintro rfl
      obtain ⟨_, hpath, -⟩ := path_append.1 hq.path
      exact (List.nodup_append.1 hq.nodup).2.2 a (hpath.mem_of_ne_nil (by simp) rfl) a
        List.mem_cons_self rfl
    exact (ih hq).step fun fuel => by simp [findPrev, next, hc, hqa]

/-- `List_delete_node` takes out a node of the list. -/
theorem ends_deleteNode (checks : Bool) (h : IsList m p (l ++ a :: r) (xs ++ x :: ys))
    (hlen : l.length = xs.length) :
    ∃ p' m', Ends (deleteNode checks · m p a) (.ok p', m') ∧ IsList m' p' (l ++ r) (xs ++ ys) ∧
      ∀ b, b ∉ l ++ a :: r → m' b = m b := by
  obtain ⟨hnodup, hcons, hdisj⟩ := List.nodup_append.1 h.nodup
  obtain ⟨har, hr⟩ := List.nodup_cons.1 hcons
  have hala : ∀ b ∈ l ++ r, b ≠ a := by
    intro b hb heq
    rcases List.mem_append.1 hb with hb | hb
    · exact hdisj b hb a List.mem_cons_self heq
    · exact har (heq ▸ hb)
  have hnodup' : (l ++ r).Nodup := h.nodup.sublist ((List.sublist_cons_self a r).append_left l)
  obtain ⟨n, hn⟩ := ne_none_iff_exists'.1 (h.ne_none (a := a) (by simp))
  have hdata : l.map (CircList.data m) = xs.map some ∧ r.map (CircList.data m) = ys.map some := by
    have hdata := h.data
    rw [List.map_append, List.map_append] at hdata
    obtain ⟨hl, hrest⟩ := List.append_inj hdata (by simpa using hlen)
    exact ⟨hl, (List.cons.inj hrest).2⟩
  rcases List.eq_nil_or_concat l with rfl | ⟨l, c, rfl⟩
  · obtain rfl : xs = [] := List.length_eq_zero_iff.1 hlen.symm
    obtain ⟨rfl, ⟨q, ha, hq⟩, -⟩ := cons_iff.1 h
    refine ⟨q, update m a none, .of_eq fun fuel => ?_, hq.congr fun b hb => ?_, fun b hb => ?_⟩
    · simp [deleteNode, next, ha, Cells.free_eq ha]
    · exact update_of_ne (hala b hb) ..
    · exact update_of_ne (fun heq => hb (by simp [heq])) ..
  · rw [List.concat_eq_append] at *
    have hpa : p ≠ some a := by
      rintro rfl
      obtain ⟨_, hpath, -⟩ := path_append.1 h.path
      exact hala a (List.mem_append_left _ (hpath.mem_of_ne_nil (by simp) rfl)) rfl
    obtain ⟨v, hv⟩ := ne_none_iff_exists'.1 (h.ne_none (a := c) (by simp))
    have hca : c ≠ a := hala c (by simp)
    have hset : setNext m c n.next = some (update m c (some ⟨v.data, n.next⟩)) := Cells.modify_eq hv
    have hfree : Cells.free (update m c (some ⟨v.data, n.next⟩)) a =
        some (update (update m c (some ⟨v.data, n.next⟩)) a none) :=
      Cells.free_eq (v := n) (by rw [update_of_ne (Ne.symm hca), hn])
    have hsame : ∀ b, b ≠ a → b ≠ c → update (update m c (some ⟨v.data, n.next⟩)) a none b = m b :=
      fun b hba hbc => by
      rw [update_of_ne hba, update_of_ne hbc]
    have hc : update (update m c (some ⟨v.data, n.next⟩)) a none c = some ⟨v.data, n.next⟩ := by
      rw [update_of_ne hca, update_self]
    have hother : ∀ b ∈ l ++ r, b ≠ c := by
      intro b hb heq
      have hperm : (l ++ [c] ++ r).Perm (c :: (l ++ r)) := by
        rw [List.append_assoc]
        exact List.perm_middle
      exact (List.nodup_cons.1 (hperm.nodup_iff.1 hnodup')).1 (heq ▸ hb)
    refine ⟨p, _, ?_, ⟨?_, ?_, hnodup'⟩, fun b hb => hsame b (fun heq => hb (by simp [heq]))
      fun heq => hb (by simp [heq])⟩
    · obtain ⟨bound, hbound⟩ := h.ends_findPrev
      refine ⟨bound, fun fuel hfuel => ?_⟩
      simp only [deleteNode, if_neg hpa, hbound fuel hfuel, next, hn, map_some, hset,
        hfree, bind_eq_bind, bind_some]
    · refine h.path.unlink (fun b hb => step_congr (hsame b (hala b ?_) (hother b hb))) ?_
      · rcases List.mem_append.1 hb with hb | hb <;> simp [hb]
      · rw [step, step, Cells.link_of_eq hc, Cells.link_of_eq hn]
    · rw [List.map_append, @List.map_append _ _ _ xs, ← hdata.1, ← hdata.2, ← List.map_append,
        ← List.map_append]
      refine List.map_congr_left fun b hb => ?_
      by_cases hbc : b = c
      · rw [hbc, CircList.data, CircList.data, hc, hv, map_some, map_some]
      · exact data_congr (hsame b (hala b hb) hbc)

theorem ends_deleteHead (checks : Bool) (h : IsList m p (a :: l) (x :: xs)) :
    ∃ p' m', Ends (deleteHead checks · m p) (.ok (p', some x), m') ∧ IsList m' p' l xs ∧
      ∀ b, b ∉ a :: l → m' b = m b := by
  have hsplit : IsList m p ([] ++ a :: l) ([] ++ x :: xs) := h
  obtain ⟨p', m', ⟨bound, hbound⟩, hlist, hsame⟩ := hsplit.ends_deleteNode checks rfl
  obtain ⟨rfl, ⟨q, ha, -⟩, -⟩ := cons_iff.1 h
  refine ⟨p', m', ⟨bound, fun fuel hfuel => ?_⟩, hlist, hsame⟩
  simp only [deleteHead, CircList.data, ha, map_some, hbound fuel hfuel, bind_eq_bind, bind_some]

theorem ends_length (h : IsList m p l xs) : Ends (length m · p) xs.length := by
  induction l generalizing p xs with
  | nil =>
    obtain rfl : p = none := h.path
    obtain rfl : xs = [] := List.length_eq_zero_iff.1 h.length_eq.symm
    exact .of_succ fun fuel => rfl
  | cons a l ih =>
    obtain ⟨x, xs, rfl⟩ := h.exists_cons
    obtain ⟨rfl, ⟨q, ha, hq⟩, -⟩ := cons_iff.1 h
    exact ((ih hq).map (· + 1)).step fun fuel => by simp [length, next, ha, map_eq_bind]

/-- The node that `List_find_key` returns is the first one with a datum that is equal to the key. -/
def Finds (l : List Nat) (xs : List ο) (eq : ο → Bool) : Option Nat → Prop
  | none => ∀ x ∈ xs, eq x = false
  | some a => ∃ l1 l2 xs1 x xs2, l = l1 ++ a :: l2 ∧ xs = xs1 ++ x :: xs2 ∧ l1.length = xs1.length ∧
      (∀ y ∈ xs1, eq y = false) ∧ eq x = true

variable {eq : ο → Bool} {equal : ο → Option Bool}

theorem ends_findLoop {list curr : Option Nat} (h : IsList m p l xs)
    (hcurr : iterator m list curr = some p) (heq : ∀ x ∈ xs, equal x = some (eq x)) :
    ∃ res, Ends (findLoop m list equal · curr) res ∧ Finds l xs eq res := by
  induction l generalizing p xs curr with
  | nil =>
    obtain rfl : p = none := h.path
    obtain rfl : xs = [] := List.length_eq_zero_iff.1 h.length_eq.symm
    exact ⟨none, .of_succ fun fuel => by simp [findLoop, hcurr], by simp [Finds]⟩
  | cons a l ih =>
    obtain ⟨x, xs, rfl⟩ := h.exists_cons
    obtain ⟨rfl, ⟨q, ha, hq⟩, -⟩ := cons_iff.1 h
    obtain ⟨hx, hxs⟩ := List.forall_mem_cons.1 heq
    cases hex : eq x with
    | true =>
      refine ⟨some a, .of_succ fun fuel => ?_, [], l, [], x, xs, rfl, rfl, rfl, by simp, hex⟩
      simp [findLoop, hcurr, CircList.data, ha, hx, hex]
    | false =>
      obtain ⟨res, hends, hres⟩ :=
        ih hq (show iterator m list (some a) = some q by simp [iterator, next, ha]) hxs
      refine ⟨res, hends.step fun fuel => by simp [findLoop, hcurr, CircList.data, ha, hx, hex], ?_⟩
      cases res with
      | none => exact List.forall_mem_cons.2 ⟨hex, hres⟩
      | some b =>
        obtain ⟨l1, l2, xs1, y, xs2, rfl, rfl, hlen, hno, hy⟩ := hres
        exact ⟨a :: l1, l2, x :: xs1, y, xs2, rfl, rfl, by simp [hlen],
          List.forall_mem_cons.2 ⟨hex, hno⟩, hy⟩

/-- `List_find_key`, in a build without `Require`. -/
theorem ends_findKey (h : IsList m p l xs) (heq : ∀ x ∈ xs, equal x = some (eq x)) :
    ∃ res, Ends (findKey false · m p equal) (.ok res) ∧ Finds l xs eq res := by
  obtain ⟨res, hends, hres⟩ := h.ends_findLoop (show iterator m p none = some p from rfl) heq
  exact ⟨res, by simpa [findKey] using hends.map Except.ok, hres⟩

end IsList

end CLangProject.SingleList

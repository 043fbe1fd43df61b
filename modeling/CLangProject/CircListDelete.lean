import CLangProject.CircList

/-!
# Circular lists: deletion

`CircList_delete` returns the datum of the first node but takes out the last one, which
the list points to. The data that stay are those of a deletion of the first node only if
all data are equal.

`CircList_destroy` compares the list with `next_tmp` right after it has been set to
`next_tmp`, and so it stops after one node, with a list that is not NULL.
-/

namespace CLangProject.CircList

open List Option Function

variable {ο : Type} {m m' : Cells (Node ο)} {a i last fuel : Nat} {p : Option Nat} {l r : List Nat}
  {L : List ο} {x : ο}

/-! ## Deletion of the first datum -/

/-- The node before the last one is found from the first node on. -/
theorem findPrev_eq (h : Rest m last i r) (hi : i ≠ last) (hfuel : r.length < fuel) :
    findPrev m last last fuel i = some (r.getLastD i) := by
  induction r generalizing i fuel with
  | nil =>
    obtain ⟨fuel, rfl⟩ := Nat.exists_eq_add_one_of_ne_zero (Nat.ne_of_gt hfuel)
    simp [findPrev, hi, next_of_step h.step_nil]
  | cons a r ih =>
    obtain ⟨hstep, hne, hrest⟩ := h.step_cons
    rw [length_cons] at hfuel
    obtain ⟨fuel, rfl⟩ := Nat.exists_eq_add_one_of_ne_zero (show fuel ≠ 0 by omega)
    have ih := ih hrest hne (Nat.lt_of_succ_lt_succ hfuel)
    rw [getLastD_cons]
    simp [findPrev, hi, next_of_step hstep, hne, ih]

theorem step_update_none : step (update m a none) = update (step m) a none := Cells.link_update ..

theorem data_update_none (hi : i ≠ a) : data (update m a none) i = data m i := by
  rw [data, update_of_ne hi, data]

theorem delete_single (h : Ring m (some last) [last]) (hx : data m last = some x) :
    delete fuel m (some last) = some (update m last none, none, some x) := by
  have hstep : step m last = some last := h.path.2
  obtain ⟨n, hn, -⟩ := Cells.exists_of_link hstep
  simp [delete, deleteNode, hstep, hx, next_of_step hstep, Cells.free_eq hn]

/-- The last node is taken out, and the node `a` before it becomes the last one. -/
theorem delete_many (h : Ring m (some last) (r ++ [a] ++ [last]))
    (hx : (r ++ [a]).head?.bind (data m) = some x) :
    ∃ m', (∀ fuel, r.length < fuel → delete fuel m (some last) = some (m', some a, some x)) ∧
      Ring m' (some a) (r ++ [a]) ∧ ∀ i ∈ r ++ [a], data m' i = data m i := by
  obtain ⟨r', hr', hrest⟩ := h.exists_rest
  obtain rfl := append_cancel_right hr'
  -- the first node
  obtain ⟨f, t, hft⟩ : ∃ f t, r ++ [a] = f :: t := exists_cons_of_ne_nil (by simp)
  rw [hft] at hrest hx
  obtain ⟨hstep, hne, htail⟩ := hrest.step_cons
  have hlast : t.getLastD f = a := by
    have := congrArg List.getLast? hft
    rw [List.getLast?_concat, List.getLast?_cons] at this
    rw [getLastD_eq_getLast?]
    exact (some.inj this).symm
  have hlen : t.length = r.length := by
    have := congrArg List.length hft
    rw [length_append, length_singleton, length_cons] at this
    omega
  have hsplit := nodup_append.1 h.nodup
  have hal : ∀ i ∈ r ++ [a], i ≠ last := fun i hi => hsplit.2.2 i hi last (mem_singleton_self _)
  have hra : ∀ i ∈ r, i ≠ a :=
    fun i hi => (nodup_append.1 hsplit.1).2.2 i hi a (mem_singleton_self _)
  have haa : a ≠ last := hal a (by simp)
  have hstepa : step m a = some last := by
    obtain ⟨q, hq, hq', -⟩ := path_append.1 h.path
    obtain ⟨-, -, -, hstepa⟩ := path_append.1 hq
    exact hstepa.trans hq'
  obtain ⟨na, hna, -⟩ := Cells.exists_of_link hstepa
  obtain ⟨n, hn, hnext⟩ := Cells.exists_of_link hstep
  have hown : some last ≠ some f := fun heq => hne (some.inj heq).symm
  refine ⟨update (update m a (some ⟨na.data, some f⟩)) last none, fun fuel hfuel => ?_, ?_,
    fun i hi => ?_⟩
  · have hfind := findPrev_eq htail hne (hlen ▸ hfuel)
    rw [hlast] at hfind
    have hset : setNext m a (some f) = some (update m a (some ⟨na.data, some f⟩)) :=
      Cells.modify_eq hna
    have hfree : Cells.free (update m a (some (⟨na.data, some f⟩ : Node ο))) last =
        some (update (update m a (some ⟨na.data, some f⟩)) last none) :=
      Cells.free_eq (v := n) (by rw [update_of_ne (Ne.symm haa), hn])
    have hdata : data m f = some x := hx
    simp [delete, deleteNode, hstep, hdata, next_of_step hstep, hown, hfind,
      next_of_step hstepa, hset, hfree]
  · refine h.dropLast (fun i hi => ?_) ?_
    · rw [step_update_none, step_update, update_of_ne (hal i (mem_append_left _ hi)),
        update_of_ne (hra i hi)]
    · rw [step_update_none, step_update, update_of_ne haa, update_self, hstep]
  · rw [data_update_none (hal i hi), data_update]
    by_cases hia : i = a
    · rw [hia, update_self, data, hna, map_some]
    · rw [update_of_ne hia]

/-- A deletion returns the first datum and removes the last one. -/
theorem Holds.delete (h : Holds m p (x :: L)) :
    ∃ m' p', Ends (CircList.delete · m p) (m', p', some x) ∧ Holds m' p' (x :: L).dropLast := by
  obtain ⟨l, hl, hL⟩ := h
  cases p with
  | none =>
    rw [hl.nil_iff.2 rfl] at hL
    cases hL
  | some last =>
    obtain ⟨r, rfl, -⟩ := hl.exists_rest
    cases r using List.reverseRecOn with
    | nil =>
      rw [nil_append, map_cons, map_cons, List.cons.injEq] at hL
      obtain rfl : L = [] := by simpa using hL.2.symm
      exact ⟨_, none, ⟨0, fun fuel _ => delete_single hl hL.1⟩, holds_new _⟩
    | append_singleton r a =>
      have hdrop : (r ++ [a]).map (data m) = (x :: L).dropLast.map some := by
        have := congrArg List.dropLast hL
        rwa [map_append, map_singleton, dropLast_concat, ← map_dropLast] at this
      have hx : (r ++ [a]).head?.bind (data m) = some x := by
        have := congrArg List.head? hL
        rw [List.head?_map, List.head?_append_of_ne_nil _ (by simp)] at this
        cases hf : (r ++ [a]).head? with
        | none => simp at hf
        | some f =>
          rw [hf] at this
          exact some.inj this
      obtain ⟨m', hm', hring, hdata⟩ := delete_many hl hx
      refine ⟨m', some a, ⟨r.length + 1, hm'⟩, r ++ [a], hring, ?_⟩
      rw [map_congr_left hdata, hdrop]

/-- The lists that the calls build. -/
inductive Reachable : Cells (Node ο) → Option Nat → Prop
  | new (m : Cells (Node ο)) : Reachable m none
  | insert {m m' : Cells (Node ο)} {p p' : Option Nat} {a : Nat} {x : ο} (h : Reachable m p)
      (ha : m a = none) (hm : insert m p a x = some (m', p')) : Reachable m' p'
  | append {m m' : Cells (Node ο)} {p p' : Option Nat} {a : Nat} {x : ο} (h : Reachable m p)
      (ha : m a = none) (hm : append m p a x = some (m', p')) : Reachable m' p'
  | delete {m m' : Cells (Node ο)} {p p' : Option Nat} {r : Option ο} (h : Reachable m p)
      (hm : Ends (delete · m p) (m', p', r)) : Reachable m' p'

theorem delete_nil : Ends (delete · m none) (m, none, none) := ⟨0, fun _ _ => rfl⟩

theorem Reachable.holds (h : Reachable m p) : ∃ L, Holds m p L := by
  induction h with
  | new m => exact ⟨[], holds_new m⟩
  | insert _ ha hm ih =>
    obtain ⟨L, hL⟩ := ih
    obtain ⟨m', p', hm', h'⟩ := hL.insert ha
    obtain ⟨rfl, rfl⟩ := Prod.mk.inj (some.inj (hm'.symm.trans hm))
    exact ⟨_, h'⟩
  | append _ ha hm ih =>
    obtain ⟨L, hL⟩ := ih
    obtain ⟨m', p', hm', h'⟩ := hL.append ha
    obtain ⟨rfl, rfl⟩ := Prod.mk.inj (some.inj (hm'.symm.trans hm))
    exact ⟨_, h'⟩
  | @delete m m' p p' r _ hm ih =>
    obtain ⟨L, hL⟩ := ih
    cases L with
    | nil =>
      obtain ⟨l, hl, hnil⟩ := hL
      obtain rfl : l = [] := by simpa using hnil
      obtain rfl := hl.nil_iff.1 rfl
      obtain ⟨rfl, hp⟩ := Prod.mk.inj (hm.unique delete_nil)
      exact ⟨[], (Prod.mk.inj hp).1 ▸ holds_new m'⟩
    | cons x L =>
      obtain ⟨m1, p1, hm1, h1⟩ := hL.delete
      obtain ⟨rfl, hp⟩ := Prod.mk.inj (hm.unique hm1)
      exact ⟨_, (Prod.mk.inj hp).1 ▸ h1⟩

/-- `CircList_delete` returns and removes the first datum; on an empty list it fails and
changes nothing. -/
def DeletesFirst (m : Cells (Node ο)) (p : Option Nat) : List ο → Prop
  | [] => Ends (delete · m p) (m, p, none)
  | x :: L => ∃ m' p', Ends (delete · m p) (m', p', some x) ∧ Holds m' p' L

/-- All data are equal. -/
def Uniform (L : List ο) : Prop := ∀ x ∈ L, ∀ y ∈ L, x = y

theorem dropLast_eq_iff : (x :: L).dropLast = L ↔ ∀ y ∈ L, y = x := by
  induction L generalizing x with
  | nil => simp
  | cons y L ih =>
    rw [dropLast_cons_of_ne_nil (cons_ne_nil y L), List.cons.injEq, ih, forall_mem_cons]
    constructor
    · rintro ⟨rfl, hL⟩
      exact ⟨rfl, hL⟩
    · rintro ⟨rfl, hL⟩
      exact ⟨rfl, hL⟩

theorem uniform_cons : Uniform (x :: L) ↔ ∀ y ∈ L, y = x := by
  refine ⟨fun h y hy => h y (mem_cons_of_mem x hy) x mem_cons_self, fun h => ?_⟩
  have hall : ∀ y ∈ x :: L, y = x := forall_mem_cons.2 ⟨rfl, h⟩
  exact fun y hy z hz => (hall y hy).trans (hall z hz).symm

theorem Holds.deletesFirst_iff (h : Holds m p L) : DeletesFirst m p L ↔ Uniform L := by
  cases L with
  | nil =>
    obtain ⟨l, hl, hnil⟩ := h
    obtain rfl : l = [] := by simpa using hnil
    obtain rfl := hl.nil_iff.1 rfl
    exact iff_of_true delete_nil nofun
  | cons x L =>
    rw [uniform_cons, ← dropLast_eq_iff]
    obtain ⟨m', p', hm', h'⟩ := h.delete
    constructor
    · rintro ⟨m1, p1, hm1, h1⟩
      obtain ⟨rfl, hp⟩ := Prod.mk.inj (hm'.unique hm1)
      obtain rfl := (Prod.mk.inj hp).1
      exact h'.unique h1
    · intro heq
      exact ⟨m', p', hm', by rw [heq] at h'; exact h'⟩

/-- The first datum is returned and removed exactly if all data are equal. -/
theorem deletesFirst_iff_uniform (m : Cells (Node ο)) (p : Option Nat) (h : Reachable m p) :
    ∃ L, Holds m p L ∧ (DeletesFirst m p L ↔ Uniform L) := by
  obtain ⟨L, hL⟩ := h.holds
  exact ⟨L, hL, hL.deletesFirst_iff⟩

/-- The memory after 1 and 2 have been appended. -/
def oneTwo : Cells (Node Nat)
  | 0 => some ⟨1, some 1⟩
  | 1 => some ⟨2, some 0⟩
  | _ => none

theorem reachable_oneTwo : Reachable oneTwo (some 1) := by
  have hone : append (fun _ => none) none 0 1 =
      some (update (fun _ => none) 0 (some ⟨1, some 0⟩), some 0) := by
    simp [append, insert, setNext, next, Cells.alloc, Cells.modify]
  have htwo : append (update (fun _ => none) 0 (some ⟨1, some 0⟩)) (some 0) 1 2 =
      some (oneTwo, some 1) := by
    simp only [append, insert, setNext, next, Cells.alloc, Cells.modify]
    refine congrArg (fun m => some (m, some 1)) (funext fun i => ?_)
    rcases i with _ | _ | i <;> rfl
  exact .append (.append (.new fun _ => none) rfl hone) rfl htwo

theorem deletesFirst_iff_uniform_oneTwo : Reachable oneTwo (some 1) ∧
    ∃ L, Holds oneTwo (some 1) L ∧ (DeletesFirst oneTwo (some 1) L ↔ Uniform L) :=
  ⟨reachable_oneTwo, deletesFirst_iff_uniform oneTwo (some 1) reachable_oneTwo⟩

theorem holds_oneTwo : Holds oneTwo (some 1) [1, 2] :=
  ⟨[0, 1], ⟨by decide, rfl, rfl, rfl, rfl⟩, rfl⟩

/-- The deletion returns 1 and leaves it in the list. -/
theorem not_deletesFirst_oneTwo : Reachable oneTwo (some 1) ∧ Holds oneTwo (some 1) [1, 2] ∧
    ¬ DeletesFirst oneTwo (some 1) [1, 2] := by
  refine ⟨reachable_oneTwo, holds_oneTwo, fun hdel => ?_⟩
  have := holds_oneTwo.deletesFirst_iff.1 hdel 1 (by simp) 2 (by simp)
  simp at this

/-! ## Destruction -/

/-- `CircList_destroy` gives the datum of every node to the function once, frees the
nodes and nothing else, and leaves NULL. -/
def Destroys (m : Cells (Node ο)) (p : Option Nat) (l : List Nat) : Prop :=
  ∃ m' done, Ends (destroy · m p true) (m', none, done) ∧ (done.map some).Perm (l.map (data m)) ∧
    ∀ a, m' a = if a ∈ l then none else m a

/-- The loop ends after one node, and the list is the node that was the first one. -/
theorem Ring.destroy_eq (h : Ring m (some last) l) :
    ∃ m' f done, Ends (destroy · m (some last) true) (m', some f, done) := by
  obtain ⟨r, rfl, hrest⟩ := h.exists_rest
  obtain ⟨f, hf⟩ := hrest.exists_step
  obtain ⟨n, hn, -⟩ := Cells.exists_of_link hf
  refine ⟨update m last none, f, [n.data], 2, fun fuel hfuel => ?_⟩
  obtain ⟨fuel, rfl⟩ := Nat.exists_eq_add_of_le' hfuel
  simp [destroy, destroyLoop, next_of_step hf, data, hn, Cells.free_eq hn]

/-- A list is destroyed exactly if it is empty. -/
theorem destroys_iff_nil (m : Cells (Node ο)) (p : Option Nat) (l : List Nat) (h : Ring m p l) :
    Destroys m p l ↔ l = [] := by
  cases p with
  | none =>
    obtain rfl := h.nil_iff.2 rfl
    refine iff_of_true ⟨m, [], ⟨1, fun fuel hfuel => ?_⟩, Perm.refl [], fun a =>
      (if_neg nofun).symm⟩ rfl
    obtain ⟨fuel, rfl⟩ := Nat.exists_eq_add_of_le' hfuel
    rfl
  | some last =>
    refine iff_of_false ?_ fun hnil => by have := h.nil_iff.1 hnil; cases this
    rintro ⟨m', done, hm', -⟩
    obtain ⟨m1, f, done1, h1⟩ := h.destroy_eq
    have := (Prod.mk.inj (Prod.mk.inj (hm'.unique h1)).2).1
    cases this

theorem ring_oneTwo : Ring oneTwo (some 1) [0, 1] := ⟨by decide, rfl, rfl, rfl, rfl⟩

theorem destroys_iff_nil_oneTwo : Ring oneTwo (some 1) [0, 1] ∧ (Destroys oneTwo (some 1) [0, 1] ↔
      [0, 1] = []) :=
  ⟨ring_oneTwo, destroys_iff_nil oneTwo (some 1) [0, 1] ring_oneTwo⟩

/-- After one node the list points to the other one. -/
theorem not_destroys_oneTwo : Ring oneTwo (some 1) [0, 1] ∧ ¬ Destroys oneTwo (some 1) [0, 1] := by
  refine ⟨ring_oneTwo, fun ⟨m', done, hm', _⟩ => ?_⟩
  obtain ⟨m1, f, done1, h1⟩ := ring_oneTwo.destroy_eq
  have := (Prod.mk.inj (Prod.mk.inj (hm'.unique h1)).2).1
  cases this

end CLangProject.CircList

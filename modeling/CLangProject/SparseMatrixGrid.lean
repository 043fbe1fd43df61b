import CLangProject.SparseMatrix

/-!
# Sparse matrices: the lists

Along one axis the nodes of the matrix stand in `Lines`: one list for each number on the other
axis, with the nodes in ascending order. `getPrevious` finds the place of a number in such a
list, and `linkBehind` puts a node there without a change along the other axis. A `Grid` has
the same nodes along both axes, and with each node the two headers of its lists.
-/

namespace CLangProject.SparseMatrix

open List Option Function

variable {ο σ : Type} {m m' : Cells (Node ο)} {a b h fuel : Nat} {i k : Int} {d e : Axis}
    {p : Option Nat}
  {N : Set Nat} {L : Int → List Nat} {l pre suf : List Nat} {v : Option ο}

/-! ## Links, numbers and data -/

def nextOf (m : Cells (Node ο)) (d : Axis) : Nat → Option Nat := Cells.link (Node.next d) m

def prevOf (m : Cells (Node ο)) (d : Axis) : Nat → Option Nat := Cells.link (Node.prev d) m

/-- The row or the column of a node. -/
def coord (m : Cells (Node ο)) (d : Axis) (a : Nat) : Int := (getKey d m a).getD 0

structure View (m : Cells (Node ο)) (next prev : Axis → Nat → Option Nat) (pos : Axis → Nat → Int)
    (data : Nat → Option (Option ο)) : Prop where
  next_eq : nextOf m = next
  prev_eq : prevOf m = prev
  pos_eq : coord m = pos
  data_eq : getData m = data

theorem View.refl (m : Cells (Node ο)) : View m (nextOf m) (prevOf m) (coord m) (getData m) :=
  ⟨rfl, rfl, rfl, rfl⟩

theorem exists_node (h : getData m a = some v) : ∃ n, m a = some n ∧ n.datapointer = v :=
  map_eq_some_iff.1 h

theorem getKey_eq (h : getData m a = some v) : getKey d m a = some (coord m d a) := by
  obtain ⟨n, hn, -⟩ := exists_node h
  rw [coord, getKey, hn, map_some, getD_some]

theorem getNext_eq (h : getData m a = some v) : getNext d m a = some (nextOf m d a) := by
  obtain ⟨n, hn, -⟩ := exists_node h
  rw [getNext, hn, map_some, nextOf, Cells.link_of_eq hn]

theorem getPrev_eq (h : getData m a = some v) : getPrev d m a = some (prevOf m d a) := by
  obtain ⟨n, hn, -⟩ := exists_node h
  rw [getPrev, hn, map_some, prevOf, Cells.link_of_eq hn]

section Update

variable {n n' : Node ο}

theorem nextOf_of_eq (hn : m a = some n) : nextOf m d a = n.next d := Cells.link_of_eq hn

theorem prevOf_of_eq (hn : m a = some n) : prevOf m d a = n.prev d := Cells.link_of_eq hn

theorem nextOf_update (n : Node ο) : nextOf (update m a (some n)) = fun d =>
  update (nextOf m d) a (n.next d) :=
  funext fun _ => Cells.link_update ..

theorem prevOf_update (n : Node ο) : prevOf (update m a (some n)) = fun d =>
  update (prevOf m d) a (n.prev d) :=
  funext fun _ => Cells.link_update ..

theorem coord_update (n : Node ο) : coord (update m a (some n)) = fun d =>
  update (coord m d) a (n.key d) := by
  funext d i
  by_cases hi : i = a
  · subst hi
    rw [coord, getKey, update_self, update_self, map_some, getD_some]
  · rw [coord, getKey, update_of_ne hi, update_of_ne hi, coord, getKey]

theorem getData_update (n : Node ο) : getData (update m a (some n)) = update (getData m)
    a (some n.datapointer) := by
  funext i
  by_cases hi : i = a
  · subst hi
    rw [getData, update_self, update_self, map_some]
  · rw [getData, update_of_ne hi, update_of_ne hi, getData]

section

variable (hn : m a = some n)
include hn

theorem nextOf_update_of_eq (h : ∀ d, n'.next d = n.next d) :
    nextOf (update m a (some n')) = nextOf m := by
  rw [nextOf_update]
  funext d
  rw [h, ← nextOf_of_eq hn, update_eq_self]

theorem prevOf_update_of_eq (h : ∀ d, n'.prev d = n.prev d) :
    prevOf (update m a (some n')) = prevOf m := by
  rw [prevOf_update]
  funext d
  rw [h, ← prevOf_of_eq hn, update_eq_self]

theorem coord_update_of_eq (h : ∀ d, n'.key d = n.key d) :
    coord (update m a (some n')) = coord m := by
  rw [coord_update]
  funext d
  have hcoord : coord m d a = n.key d := by rw [coord, getKey, hn, map_some, getD_some]
  rw [h, ← hcoord, update_eq_self]

theorem getData_update_of_eq (h : n'.datapointer = n.datapointer) :
    getData (update m a (some n')) = getData m := by
  have hdata : getData m a = some n.datapointer := by rw [getData, hn, map_some]
  rw [getData_update, h, ← hdata, update_eq_self]

end

end Update

namespace View

variable {next prev : Axis → Nat → Option Nat} {pos : Axis → Nat → Int}
    {data : Nat → Option (Option ο)}

theorem setNext (hv : View m next prev pos data) (ha : data a = some v) (d : Axis)
    (p : Option Nat) :
    ∃ m', SparseMatrix.setNext d m a p = some m' ∧
      View m' (update next d (redirect (next d) (some a) p)) prev pos data := by
  obtain ⟨rfl, rfl, rfl, rfl⟩ := hv
  obtain ⟨n, hn, -⟩ := exists_node ha
  refine ⟨_, Cells.modify_eq hn, (nextOf_update _).trans ?_, prevOf_update_of_eq hn fun _ =>
    Node.setNext_prev .., coord_update_of_eq hn fun _ => Node.setNext_key ..,
      getData_update_of_eq hn (Node.setNext_datapointer ..)⟩
  funext e
  rw [Node.setNext_next]
  by_cases he : e = d
  · subst he
    rw [if_pos rfl, update_self, redirect_some]
  · rw [if_neg he, update_of_ne he, ← nextOf_of_eq hn, update_eq_self]

theorem setPrev (hv : View m next prev pos data) (ha : data a = some v) (d : Axis)
    (p : Option Nat) :
    ∃ m', SparseMatrix.setPrev d m a p = some m' ∧
      View m' next (update prev d (redirect (prev d) (some a) p)) pos data := by
  obtain ⟨rfl, rfl, rfl, rfl⟩ := hv
  obtain ⟨n, hn, -⟩ := exists_node ha
  refine ⟨_, Cells.modify_eq hn, nextOf_update_of_eq hn fun _ => Node.setPrev_next ..,
    (prevOf_update _).trans ?_, coord_update_of_eq hn fun _ => Node.setPrev_key ..,
    getData_update_of_eq hn (Node.setPrev_datapointer ..)⟩
  funext e
  rw [Node.setPrev_prev]
  by_cases he : e = d
  · subst he
    rw [if_pos rfl, update_self, redirect_some]
  · rw [if_neg he, update_of_ne he, ← prevOf_of_eq hn, update_eq_self]

theorem setPrevOf (hv : View m next prev pos data) (hp : ∀ a, p = some a → ∃ v, data a = some v)
    (d : Axis) (q : Option Nat) : ∃ m', SparseMatrix.setPrevOf d m p q = some m' ∧
      View m' next (update prev d (redirect (prev d) p q)) pos data := by
  cases p with
  | none =>
    have hredirect : redirect (prev d) none q = prev d := rfl
    refine ⟨m, rfl, ?_⟩
    rw [hredirect, update_eq_self]
    exact hv
  | some a =>
    obtain ⟨v, hv'⟩ := hp a rfl
    exact hv.setPrev hv' d q

theorem setData (hv : View m next prev pos data) (ha : data a = some v) (v' : Option ο) :
    ∃ m', SparseMatrix.setData m a v' = some m' ∧
      View m' next prev pos (update data a (some v')) := by
  obtain ⟨rfl, rfl, rfl, rfl⟩ := hv
  obtain ⟨n, hn, -⟩ := exists_node ha
  refine ⟨_, Cells.modify_eq hn, nextOf_update_of_eq hn fun d => ?_, prevOf_update_of_eq hn fun d =>
    ?_, coord_update_of_eq hn fun d => ?_, getData_update _⟩
  all_goals cases d <;> rfl

/-- What `linkBehind` does to the links along `d`. -/
theorem linkBehind (ha : getData m a = some v) {w : Option ο} (hb : getData m b = some w)
    (hlive : ∀ c, nextOf m d b = some c → ∃ u, getData m c = some u) :
    ∃ m', SparseMatrix.linkBehind d m a b = some m' ∧
      View m' (update (nextOf m) d (redirect (redirect (nextOf m d) (some a) (nextOf m d b))
        (some b) (some a))) (update (prevOf m) d (redirect (redirect (prevOf m d) (nextOf m d b)
          (some a)) (some a) (some b)))
        (coord m) (getData m) := by
  obtain ⟨m1, h1, v1⟩ := (View.refl m).setNext ha d (nextOf m d b)
  have ha1 : getData m1 a = some v := by rw [v1.data_eq, ha]
  have hnext1 : getNext d m1 a = some (nextOf m d b) := by
    rw [getNext_eq ha1, v1.next_eq, update_self, redirect_some, update_self]
  obtain ⟨m2, h2, v2⟩ := v1.setPrevOf hlive d (some a)
  obtain ⟨m3, h3, v3⟩ := v2.setPrev ha d (some b)
  obtain ⟨m4, h4, v4⟩ := v3.setNext hb d (some a)
  rw [update_self, update_idem, update_self, update_idem] at v4
  refine ⟨m4, ?_, v4⟩
  simp only [SparseMatrix.linkBehind, getNext_eq hb, h1, hnext1, h2, h3, h4,
    bind_eq_bind, bind_some]

end View

/-- A new node, without links. -/
structure Added (m : Cells (Node ο)) (a : Nat) (row col : Int) (v : Option ο)
    (m' : Cells (Node ο)) : Prop where
  absent : m a = none
  next_eq : ∀ d, nextOf m' d = update (nextOf m d) a none
  prev_eq : ∀ d, prevOf m' d = update (prevOf m d) a none
  row_eq : coord m' .row = update (coord m .row) a row
  col_eq : coord m' .col = update (coord m .col) a col
  data_eq : getData m' = update (getData m) a (some v)

namespace Added

variable {row col : Int}

theorem alloc (ha : m a = none) (row col : Int) (v : Option ο) :
    ∃ m', m.alloc a ⟨row, col, v, none, none, none, none⟩ = some m' ∧ Added m a row col v m' := by
  refine ⟨_, Cells.alloc_eq ha, ha, fun d => ?_, fun d =>
    ?_, by rw [coord_update]; rfl, by rw [coord_update]; rfl, getData_update _⟩
  · rw [nextOf_update]
    cases d <;> rfl
  · rw [prevOf_update]
    cases d <;> rfl

section

variable (had : Added m a row col v m')
include had

theorem ne {w : Option ο} (hb : getData m b = some w) : b ≠ a := by
  rintro rfl
  rw [getData, had.absent] at hb
  cases hb

theorem coord_of_ne (hb : b ≠ a) (d : Axis) : coord m' d b = coord m d b := by
  cases d
  · rw [had.row_eq, update_of_ne hb]
  · rw [had.col_eq, update_of_ne hb]

theorem data_of_ne (hb : b ≠ a) : getData m' b = getData m b := by
  rw [had.data_eq, update_of_ne hb]

theorem data_self : getData m' a = some v := by rw [had.data_eq, update_self]

end

end Added

/-! ## Search -/

/-- The place of the number `k` in the list `l`: behind the node `c`. -/
structure Place (m : Cells (Node ο)) (d : Axis) (l : List Nat) (k : Int) (pre suf : List Nat)
    (c : Nat) : Prop where
  eq : l = pre ++ suf
  last : pre.getLast? = some c
  le : coord m d c ≤ k
  lt : ∀ x ∈ suf, k < coord m d x

theorem Place.congr {c : Nat} (hplace : Place m d l k pre suf c)
    (hcoord : ∀ x ∈ l, coord m' d x = coord m d x) :
    Place m' d l k pre suf c := by
  obtain ⟨rfl, hlast, hle, hlt⟩ := hplace
  refine ⟨rfl, hlast, ?_, fun x hx => ?_⟩
  · rwa [hcoord c (mem_append_left _ (mem_of_getLast? hlast))]
  · rw [hcoord x (mem_append_right _ hx)]
    exact hlt x hx

theorem getPrevious_eq (hlinks : Links (nextOf m d) (prevOf m d) p (a :: l) none)
    (hlive : ∀ c ∈ a :: l, ∃ v, getData m c = some v)
    (hsorted : (a :: l).Pairwise (coord m d · < coord m d ·)) (hk : coord m d a ≤ k) :
      ∃ pre suf c, Place m d (a :: l) k pre suf c ∧ ∀ fuel, l.length < fuel →
        getPrevious d m k fuel a = some (some c) := by
  induction l generalizing a p with
  | nil =>
    obtain ⟨v, hv⟩ := hlive a mem_cons_self
    have hnext : nextOf m d a = none := hlinks.2.1
    refine ⟨[a], [], a, ⟨rfl, rfl, hk, nofun⟩, fun fuel hfuel => ?_⟩
    obtain ⟨fuel, rfl⟩ := Nat.exists_eq_add_one_of_ne_zero (Nat.ne_of_gt hfuel)
    simp [getPrevious, getKey_eq hv, getNext_eq hv, hk, hnext]
  | cons b l ih =>
    obtain ⟨⟨v, hv⟩, hlive⟩ := forall_mem_cons.1 hlive
    obtain ⟨hlt, hsorted⟩ := pairwise_cons.1 hsorted
    have hnext : nextOf m d a = some b := hlinks.2.1
    have hstep : ∀ fuel, getPrevious d m k (fuel + 1) a = getPrevious d m k fuel b := fun fuel => by
      simp [getPrevious, getKey_eq hv, getNext_eq hv, hk, hnext]
    by_cases hb : coord m d b ≤ k
    · obtain ⟨pre, suf, c, hplace, hget⟩ := ih hlinks.2.2 hlive hsorted hb
      refine ⟨a :: pre, suf, c, ⟨by rw [hplace.eq, cons_append], ?_, hplace.le, hplace.lt⟩,
        fun fuel hfuel => ?_⟩
      · rw [List.getLast?_cons, hplace.last, getD_some]
      obtain ⟨fuel, rfl⟩ := Nat.exists_eq_add_one_of_ne_zero (Nat.ne_zero_of_lt hfuel)
      rw [hstep, hget fuel (Nat.lt_of_succ_lt_succ hfuel)]
    · -- the walk goes one step too far
      obtain ⟨w, hw⟩ := hlive b mem_cons_self
      have hprev : prevOf m d b = some a := hlinks.2.2.1
      refine ⟨[a], b :: l, a,
        ⟨rfl, rfl, hk, forall_mem_cons.2 ⟨Int.lt_of_not_ge hb, fun x hx => ?_⟩⟩,
        fun fuel hfuel => ?_⟩
      · have hbx := (pairwise_cons.1 hsorted).1 x hx
        omega
      · rw [length_cons] at hfuel
        obtain ⟨fuel, rfl⟩ := Nat.exists_eq_add_of_le' (show 2 ≤ fuel by omega)
        rw [hstep (fuel + 1)]
        simp [getPrevious, getKey_eq hw, hb, getPrev_eq hw, hprev]

/-! ## The lists along one axis -/

theorem lt_getLast {f : Nat → Int} (hl : l.Pairwise (f · < f ·)) (hb : l.getLast? = some b)
    (ha : a ∈ l) (hab : a ≠ b) : f a < f b := by
  obtain ⟨l, rfl⟩ := List.getLast?_eq_some_iff.1 hb
  have ha : a ∈ l := by simpa [hab] using ha
  exact (pairwise_append.1 hl).2.2 a ha b (mem_singleton_self b)

/-- The nodes `N` along `d`: `L i` are those with the number `i` on the other axis. -/
structure Lines (m : Cells (Node ο)) (d : Axis) (N : Set Nat) (L : Int → List Nat) : Prop where
  links : ∀ i, Links (nextOf m d) (prevOf m d) none (L i) none
  sorted : ∀ i, (L i).Pairwise (coord m d · < coord m d ·)
  mem : ∀ i a, a ∈ L i ↔ a ∈ N ∧ coord m d.other a = i

namespace Lines

theorem nodup (h : Lines m d N L) (i : Int) : (L i).Nodup := by
  refine (h.sorted i).imp fun hlt heq => ?_
  subst heq
  exact Int.lt_irrefl _ hlt

theorem eq_of_coord_eq (h : Lines m d N L) (ha : a ∈ L i) (hb : b ∈ L i)
    (hab : coord m d a = coord m d b) :
    a = b := by
  have hnodup : ((L i).map (coord m d)).Nodup :=
    pairwise_map.2 ((h.sorted i).imp fun hlt => Int.ne_of_lt hlt)
  exact inj_on_of_nodup_map hnodup ha hb hab

theorem congr (h : Lines m d N L) (hnext : ∀ a ∈ N, nextOf m' d a = nextOf m d a)
    (hprev : ∀ a ∈ N, prevOf m' d a = prevOf m d a)
    (hcoord : ∀ a ∈ N, ∀ e, coord m' e a = coord m e a) :
    Lines m' d N L where
  links i := (h.links i).congr (fun a ha => hnext a ((h.mem i a).1 ha).1) fun a ha =>
    hprev a ((h.mem i a).1 ha).1
  sorted i := by
    refine (h.sorted i).imp_of_mem fun {a b} ha hb hlt => ?_
    rwa [hcoord a ((h.mem i a).1 ha).1, hcoord b ((h.mem i b).1 hb).1]
  mem i a := by
    rw [h.mem]
    exact and_congr_right fun ha => by rw [hcoord a ha]

/-- A node alone in its list. -/
theorem start (h : Lines m d N L) (hL : L i = []) (hi : coord m d.other a = i)
    (hnext : nextOf m d a = none) (hprev : prevOf m d a = none) :
    Lines m d (insert a N) (update L i [a]) where
  links j := by
    by_cases hj : j = i
    · subst hj
      rw [update_self]
      exact ⟨hprev, hnext, trivial⟩
    · rw [update_of_ne hj]
      exact h.links j
  sorted j := by
    by_cases hj : j = i
    · subst hj
      rw [update_self]
      exact pairwise_singleton ..
    · rw [update_of_ne hj]
      exact h.sorted j
  mem j b := by
    by_cases hj : j = i
    · subst hj
      rw [update_self, mem_singleton, Set.mem_insert_iff]
      refine ⟨fun hb => ⟨.inl hb, hb ▸ hi⟩, fun ⟨hb, hbi⟩ => hb.resolve_right fun hbN => ?_⟩
      exact not_mem_nil (hL ▸ (h.mem j b).2 ⟨hbN, hbi⟩)
    · rw [update_of_ne hj, h.mem, Set.mem_insert_iff]
      refine ⟨fun hb => ⟨.inr hb.1, hb.2⟩, fun ⟨hb, hbj⟩ => ⟨hb.resolve_left fun heq => hj ?_, hbj⟩⟩
      rw [← hbj, heq, hi]

/-- The node `a` is put behind `b`. -/
theorem linkBehind (h : Lines m d N L) (hlive : ∀ c ∈ N, ∃ v, getData m c = some v)
    (hv : getData m a = some v) (ha : a ∉ N) (hi : coord m d.other a = i)
    (hplace : Place m d (L i) (coord m d a) pre suf b) (hba : coord m d b ≠ coord m d a) :
    ∃ m', SparseMatrix.linkBehind d m a b = some m' ∧
      Lines m' d (insert a N) (update L i (pre ++ a :: suf)) ∧
      nextOf m' d.other = nextOf m d.other ∧ prevOf m' d.other = prevOf m d.other ∧
      coord m' = coord m ∧ getData m' = getData m := by
  obtain ⟨hL, hb, hle, hgt⟩ := hplace
  have hlt : coord m d b < coord m d a := lt_of_le_of_ne hle hba
  have hmem : ∀ c ∈ pre ++ suf, c ∈ N ∧ coord m d.other c = i := fun c hc => (h.mem i c).1 (hL ▸ hc)
  have hbpre : b ∈ pre := mem_of_getLast? hb
  obtain ⟨w, hw⟩ := hlive b (hmem b (mem_append_left _ hbpre)).1
  have hlinks := h.links i
  have hnodup := h.nodup i
  have hsorted := h.sorted i
  rw [hL] at hlinks hnodup hsorted
  have hdisj := (nodup_append.1 hnodup).2.2
  have hnext : nextOf m d b = suf.head? := by
    have := (links_append.1 hlinks).1.next_last hb
    rwa [or_none] at this
  have hne : ∀ c ∈ N, a ≠ c := fun c hc heq => ha (heq ▸ hc)
  obtain ⟨m', hm', hview⟩ := View.linkBehind hv hw fun c hc =>
    hlive c (hmem c (mem_append_right _ (mem_of_head? (hnext ▸ hc)))).1
  have hnext' : nextOf m' d = redirect (redirect (nextOf m d) (some a) suf.head?) (some b)
      (some a) := by
    rw [hview.next_eq, update_self, hnext]
  have hprev' : prevOf m' d = redirect (redirect (prevOf m d) suf.head? (some a)) (some a)
      (some b) := by
    rw [hview.prev_eq, update_self, hnext]
  refine ⟨m', hm', ⟨fun j => ?_, fun j => ?_, fun j c => ?_⟩, ?_, ?_, hview.pos_eq, hview.data_eq⟩
  · rw [hnext', hprev']
    by_cases hj : j = i
    · subst hj
      rw [update_self]
      refine hlinks.insert hnodup (fun c hc => ?_) (fun c hc => ?_) (fun c hc => ?_)
        (fun c hc => ?_) ?_ ?_
      · simp [redirect, hb, hne c (hmem c (mem_append_left _ hc)).1]
      · have hhead : suf.head? ≠ some c := fun heq => hdisj c hc c (mem_of_head? heq) rfl
        simp [redirect, hne c (hmem c (mem_append_left _ hc)).1, hhead]
      · have hbc : b ≠ c := hdisj b hbpre c hc
        simp [redirect, hne c (hmem c (mem_append_right _ hc)).1, hbc]
      · simp [redirect, hne c (hmem c (mem_append_right _ hc)).1]
      · have hne' : b ≠ a := (hne b (hmem b (mem_append_left _ hbpre)).1).symm
        simp [redirect, hne']
      · simp [redirect, hb]
    · rw [update_of_ne hj]
      refine (h.links j).congr (fun c hc => ?_) fun c hc => ?_
      all_goals
        obtain ⟨hcN, hcj⟩ := (h.mem j c).1 hc
        have hci : c ∉ pre ++ suf := fun hmem' => hj (hcj.symm.trans (hmem c hmem').2)
      · have hbc : b ≠ c := fun heq => hci (heq ▸ mem_append_left _ hbpre)
        simp [redirect, hne c hcN, hbc]
      · have hhead : suf.head? ≠ some c := fun heq => hci (mem_append_right _ (mem_of_head? heq))
        simp [redirect, hne c hcN, hhead]
  · rw [hview.pos_eq]
    by_cases hj : j = i
    · subst hj
      rw [update_self]
      obtain ⟨hpre, hsuf, hcross⟩ := pairwise_append.1 hsorted
      refine pairwise_append.2 ⟨hpre, pairwise_cons.2 ⟨hgt, hsuf⟩, fun c hc =>
        forall_mem_cons.2 ⟨?_, hcross c hc⟩⟩
      rcases eq_or_ne c b with rfl | hcb
      · exact hlt
      · exact Int.lt_trans (lt_getLast hpre hb hc hcb) hlt
    · rw [update_of_ne hj]
      exact h.sorted j
  · rw [hview.pos_eq, Set.mem_insert_iff]
    by_cases hj : j = i
    · subst hj
      have hmem' := h.mem j c
      rw [hL] at hmem'
      rw [update_self, perm_middle.mem_iff, mem_cons, hmem', or_and_right]
      exact or_congr_left ⟨fun hc => ⟨hc, hc ▸ hi⟩, fun hc => hc.1⟩
    · rw [update_of_ne hj, h.mem]
      refine ⟨fun hc => ⟨.inr hc.1, hc.2⟩, fun hc => ⟨hc.1.resolve_left fun heq => hj ?_, hc.2⟩⟩
      rw [← hc.2, heq, hi]
  · rw [hview.next_eq, update_of_ne d.ne_other.symm]
  · rw [hview.prev_eq, update_of_ne d.ne_other.symm]

end Lines

/-! ## The matrix -/

/-- The nodes `N` of the matrix `h` in the lists `L`. -/
structure Grid (m : Cells (Node ο)) (h : Nat) (N : Set Nat) (L : Axis → Int → List Nat) : Prop where
  live : ∀ a ∈ N, ∃ v, getData m a = some v
  lines : ∀ d, Lines m d N (L d)
  root_mem : h ∈ N
  root : ∀ d, coord m d h = -1
  lower : ∀ a ∈ N, ∀ d, -1 ≤ coord m d a
  header : ∀ a ∈ N, ∀ d, ∃ b ∈ N, coord m d b = -1 ∧ coord m d.other b = coord m d.other a

namespace Grid

variable {L : Axis → Int → List Nat}

theorem congr (g : Grid m h N L) (hnext : ∀ a ∈ N, ∀ d, nextOf m' d a = nextOf m d a)
    (hprev : ∀ a ∈ N, ∀ d, prevOf m' d a = prevOf m d a)
    (hcoord : ∀ a ∈ N, ∀ d, coord m' d a = coord m d a)
    (hlive : ∀ a ∈ N, ∃ v, getData m' a = some v) : Grid m' h N L where
  live := hlive
  lines d := (g.lines d).congr (fun a ha => hnext a ha d) (fun a ha => hprev a ha d) hcoord
  root_mem := g.root_mem
  root d := (hcoord h g.root_mem d).trans (g.root d)
  lower a ha d := (hcoord a ha d).symm ▸ g.lower a ha d
  header a ha d := by
    obtain ⟨b, hb, hbd, hba⟩ := g.header a ha d
    exact ⟨b, hb, by rw [hcoord b hb, hbd], by rw [hcoord b hb, hba, hcoord a ha]⟩

theorem notMem_of_added {row col : Int} (g : Grid m h N L) (had : Added m a row col v m') :
    a ∉ N := fun ha => by
  obtain ⟨w, hw⟩ := g.live a ha
  exact had.ne hw rfl

theorem added {row col : Int} (g : Grid m h N L) (had : Added m a row col v m') :
    Grid m' h N L := by
  have hne : ∀ b ∈ N, b ≠ a := fun b hb heq => g.notMem_of_added had (heq ▸ hb)
  refine g.congr (fun b hb d => ?_) (fun b hb d => ?_) (fun b hb => had.coord_of_ne (hne b hb))
    fun b hb => ?_
  · rw [had.next_eq, update_of_ne (hne b hb)]
  · rw [had.prev_eq, update_of_ne (hne b hb)]
  · rw [had.data_of_ne (hne b hb)]
    exact g.live b hb

/-- A cell has at most one node. -/
theorem eq_of_coord_eq (g : Grid m h N L) (ha : a ∈ N) (hb : b ∈ N)
    (hab : ∀ d, coord m d a = coord m d b) : a = b :=
  (g.lines .col).eq_of_coord_eq (((g.lines .col).mem _ a).2 ⟨ha, rfl⟩)
    (((g.lines .col).mem _ b).2 ⟨hb, (hab .row).symm⟩) (hab .col)

/-- A list starts with its header. -/
theorem exists_cons (g : Grid m h N L) (hb : b ∈ N) (hbd : coord m d b = -1)
    (hbi : coord m d.other b = i) :
    ∃ l, L d i = b :: l := by
  have hmem : b ∈ L d i := ((g.lines d).mem i b).2 ⟨hb, hbi⟩
  have hsorted := (g.lines d).sorted i
  cases hL : L d i with
  | nil =>
    rw [hL] at hmem
    cases hmem
  | cons c l =>
    rw [hL] at hmem hsorted
    rcases mem_cons.1 hmem with rfl | hmem
    · exact ⟨l, rfl⟩
    · have hlt := (pairwise_cons.1 hsorted).1 b hmem
      have hc := ((g.lines d).mem i c).1 (hL ▸ mem_cons_self)
      have := g.lower c hc.1 d
      omega

/-- The search along a list from its header. -/
theorem exists_place (g : Grid m h N L) (hb : b ∈ N) (hbd : coord m d b = -1)
    (hbi : coord m d.other b = i) (hk : -1 ≤ k) : ∃ pre suf c, Place m d (L d i) k pre suf c ∧
      Ends (getPrevious d m k · b) (some c) ∧ c ∈ N ∧ coord m d.other c = i := by
  obtain ⟨l, hl⟩ := g.exists_cons hb hbd hbi
  have hlinks := (g.lines d).links i
  have hsorted := (g.lines d).sorted i
  have hmem := (g.lines d).mem i
  rw [hl] at hlinks hsorted hmem
  have hlive : ∀ c ∈ b :: l, ∃ v, getData m c = some v := fun c hc => g.live c ((hmem c).1 hc).1
  obtain ⟨pre, suf, c, hplace, hget⟩ := getPrevious_eq hlinks hlive hsorted (hbd ▸ hk)
  have hcmem : c ∈ b :: l := hplace.eq ▸ mem_append_left _ (mem_of_getLast? hplace.last)
  exact ⟨pre, suf, c, hl ▸ hplace, ⟨l.length + 1, hget⟩, (hmem c).1 hcmem⟩

/-- The node with the number, if there is one, is the one at its place. -/
theorem eq_of_place {c x : Nat} (g : Grid m h N L) (hplace : Place m d (L d i) k pre suf c)
    (hx : x ∈ N) (hxi : coord m d.other x = i) (hxk : coord m d x = k) : x = c := by
  obtain ⟨hL, hlast, hc, hsuf⟩ := hplace
  have hmem : x ∈ L d i := ((g.lines d).mem i x).2 ⟨hx, hxi⟩
  have hsorted := (g.lines d).sorted i
  rw [hL] at hmem hsorted
  rcases mem_append.1 hmem with hmem | hmem
  · by_contra hne
    have := lt_getLast (pairwise_append.1 hsorted).1 hlast hmem hne
    omega
  · exact absurd hxk (Int.ne_of_gt (hsuf x hmem))

/-- A node that is in lists along both axes. -/
theorem add {L1 L2 : Int → List Nat} (g : Grid m h N L) (hcoord : coord m' = coord m)
    (hdata : getData m' = getData m) (hv : getData m a = some v)
    (hlines : Lines m' d (insert a N) L1) (hlines' : Lines m' d.other (insert a N) L2)
    (hlower : ∀ e, -1 ≤ coord m e a) (hheader : ∀ e, ∃ b, (b = a ∨ b ∈ N) ∧ coord m e b = -1 ∧
      coord m e.other b = coord m e.other a) :
    ∃ L', Grid m' h (insert a N) L' := by
  refine ⟨update (update L d L1) d.other L2, ?_, fun e => ?_, .inr g.root_mem, ?_, ?_, ?_⟩
  · rw [hdata]
    rintro b (rfl | hb)
    · exact ⟨v, hv⟩
    · exact g.live b hb
  · rcases Axis.eq_or_eq_other d e with rfl | rfl
    · rw [update_of_ne e.ne_other, update_self]
      exact hlines
    · rw [update_self]
      exact hlines'
  · rw [hcoord]
    exact g.root
  · rw [hcoord]
    rintro b (rfl | hb) e
    · exact hlower e
    · exact g.lower b hb e
  · rw [hcoord]
    rintro b (rfl | hb) e
    · exact hheader e
    · obtain ⟨x, hx, hxe, hxb⟩ := g.header b hb e
      exact ⟨x, .inr hx, hxe, hxb⟩

/-- The header `k` is put at its place among the headers along `d`, and starts a list of
its own along the other axis. -/
theorem addHeader {c : Nat} (g : Grid m h N L) (hv : getData m a = some v) (ha : a ∉ N) (hk : 0 ≤ k)
    (hak : coord m d a = k) (hai : coord m d.other a = -1) (hnext : nextOf m d.other a = none)
    (hprev : prevOf m d.other a = none) (hplace : Place m d (L d (-1)) k pre suf c)
    (hck : coord m d c ≠ k) :
    ∃ m' L', linkBehind d m a c = some m' ∧ Grid m' h (insert a N) L' ∧ coord m' = coord m ∧
      getData m' = getData m := by
  have hplace' := hplace
  rw [← hak] at hplace' hck
  obtain ⟨m', hm', hlines, hnext', hprev', hcoord, hdata⟩ :=
    (g.lines d).linkBehind g.live hv ha hai hplace' hck
  -- a node in the list `k` along the other axis would have its header among those along `d`
  have hnil : L d.other k = [] := by
    by_contra hne
    obtain ⟨x, l, hl⟩ := exists_cons_of_ne_nil hne
    obtain ⟨hx, hxk⟩ := ((g.lines d.other).mem k x).1 (hl ▸ mem_cons_self)
    obtain ⟨b, hb, hbi, hbk⟩ := g.header x hx d.other
    rw [Axis.other_other] at hxk hbk
    have := g.eq_of_place hplace hb hbi (hbk.trans hxk)
    rw [← this, hbk, hxk, hak] at hck
    exact hck rfl
  have hother : Lines m' d.other (insert a N) (update (L d.other) k [a]) := by
    refine Lines.congr ((g.lines d.other).start hnil (by rw [Axis.other_other, hak]) hnext hprev)
      (fun b _ => by rw [hnext'])
      (fun b _ => by rw [hprev']) fun b _ e => by rw [hcoord]
  obtain ⟨L', g'⟩ : ∃ L', Grid m' h (insert a N) L' := by
    refine g.add hcoord hdata hv hlines hother (fun e => ?_) fun e => ?_
    · rcases Axis.eq_or_eq_other d e with rfl | rfl <;> omega
    · rcases Axis.eq_or_eq_other d e with rfl | rfl
      · exact ⟨h, .inr g.root_mem, g.root e, (g.root _).trans hai.symm⟩
      · exact ⟨a, .inl rfl, hai, rfl⟩
  exact ⟨m', L', hm', g', hcoord, hdata⟩

/-- A node is put at its places in two lists that have headers. -/
theorem addNode {c c' : Nat} {pre' suf' : List Nat} (g : Grid m h N L) (hv : getData m a = some v)
    (ha : a ∉ N) (hlower : ∀ e, -1 ≤ coord m e a) (hheader : ∀ e, ∃ b ∈ N, coord m e b = -1 ∧
      coord m e.other b = coord m e.other a)
    (hplace : Place m d (L d (coord m d.other a)) (coord m d a) pre suf c)
    (hck : coord m d c ≠ coord m d a)
    (hplace' : Place m d.other (L d.other (coord m d a)) (coord m d.other a) pre' suf' c')
    (hck' : coord m d.other c' ≠ coord m d.other a) :
    ∃ m1 m2 L', linkBehind d m a c = some m1 ∧ linkBehind d.other m1 a c' = some m2 ∧
      Grid m2 h (insert a N) L' ∧ coord m2 = coord m ∧ getData m2 = getData m ∧
      nextOf m1 d.other = nextOf m d.other ∧ prevOf m1 d.other = prevOf m d.other ∧
      coord m1 = coord m ∧ getData m1 = getData m := by
  obtain ⟨m1, hm1, hlines, hnext, hprev, hcoord, hdata⟩ :=
    (g.lines d).linkBehind g.live hv ha rfl hplace hck
  have hlines' : Lines m1 d.other N (L d.other) :=
    (g.lines d.other).congr (fun b _ => by rw [hnext]) (fun b _ => by rw [hprev]) fun b _ e => by
      rw [hcoord]
  have hlive : ∀ b ∈ N, ∃ v, getData m1 b = some v := by
    rw [hdata]
    exact g.live
  have hi : coord m1 d.other.other a = coord m d a := by rw [hcoord, Axis.other_other]
  have hplace1 : Place m1 d.other (L d.other (coord m d a)) (coord m1 d.other a) pre' suf' c' :=
    (congrFun₂ hcoord d.other a).symm ▸ hplace'.congr fun x _ => by rw [hcoord]
  obtain ⟨m2, hm2, hlines2, hnext2, hprev2, hcoord2, hdata2⟩ :=
    hlines'.linkBehind hlive (hdata ▸ hv) ha hi hplace1 (by rw [hcoord]; exact hck')
  rw [Axis.other_other] at hnext2 hprev2
  rw [hcoord] at hcoord2
  rw [hdata] at hdata2
  have hlines1 : Lines m2 d _ _ :=
    hlines.congr (fun b _ => by rw [hnext2]) (fun b _ => by rw [hprev2]) fun b _ e => by
    rw [hcoord2, hcoord]
  obtain ⟨L', g'⟩ := g.add hcoord2 hdata2 hv hlines1 hlines2 hlower fun e => by
    obtain ⟨x, hx, hxe, hxa⟩ := hheader e
    exact ⟨x, .inr hx, hxe, hxa⟩
  exact ⟨m1, m2, L', hm1, hm2, g', hcoord2, hdata2, hnext, hprev, hcoord, hdata⟩

end Grid

end CLangProject.SparseMatrix

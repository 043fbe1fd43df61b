import CLangProject.SparseMatrixPut

/-!
# Sparse matrices: clears

`Matrix_clear` does nothing for a cell without a node. For a cell with a node it follows NULL if the
node is the last one of its column, and otherwise it leaves the link back of the next node as it is.
So the call does what it should for a cell without a node only.
-/

namespace CLangProject.SparseMatrix

open List Option Function

variable {ο σ : Type} {A : Allocator σ} {st st' : State σ ο} {m m' : Cells (Node ο)}
    {a h x : Nat} {r k : Int}
  {d : Axis} {p : Option Nat} {N : Set Nat} {L : Axis → Int → List Nat} {hist : List (Put ο)}

/-! ## Links -/

theorem nextOf_of_getNext (hp : getNext d m a = some p) : nextOf m d a = p := by
  obtain ⟨n, hn, rfl⟩ := map_eq_some_iff.1 hp
  exact nextOf_of_eq hn

theorem exists_data_of_modify {f : Node ο → Node ο} (hm : m.modify a f = some m') :
    ∃ v, getData m a = some v := by
  refine getData_ne_none fun hn => ?_
  rw [Cells.modify, hn] at hm
  cases hm

theorem view_of_setNext (hm : setNext d m a p = some m') :
    View m' (update (nextOf m) d (redirect (nextOf m d) (some a) p)) (prevOf m) (coord m)
      (getData m) := by
  obtain ⟨v, hv⟩ := exists_data_of_modify hm
  obtain ⟨m'', hm'', hview⟩ := (View.refl m).setNext hv d p
  obtain rfl := some.inj (hm.symm.trans hm'')
  exact hview

theorem view_of_setPrev (hm : setPrev d m a p = some m') :
    View m' (nextOf m) (update (prevOf m) d (redirect (prevOf m d) (some a) p)) (coord m)
      (getData m) := by
  obtain ⟨v, hv⟩ := exists_data_of_modify hm
  obtain ⟨m'', hm'', hview⟩ := (View.refl m).setPrev hv d p
  obtain rfl := some.inj (hm.symm.trans hm'')
  exact hview

/-- With NULL behind the node the wrong test makes the call follow it, and otherwise the link back
is not set. -/
theorem unlinkRow_cases (hm : unlinkRow m x = some m') : nextOf m .row x ≠ none ∧
    prevOf m' = prevOf m := by
  simp only [unlinkRow, bind_eq_bind, bind_eq_some_iff] at hm
  obtain ⟨_, -, before, -, next, hnext, m1, hm1, next1, hnext1, hm⟩ := hm
  have hview := view_of_setNext hm1
  have heq : next1 = next := by
    rw [← nextOf_of_getNext hnext1, hview.next_eq, update_self, redirect,
      nextOf_of_getNext hnext, ite_self]
  by_cases hnone : next1 = none
  · rw [if_pos hnone, hnext1, hnone] at hm
    cases hm
  · rw [if_neg hnone] at hm
    obtain rfl := some.inj hm
    rw [nextOf_of_getNext hnext, ← heq]
    exact ⟨hnone, hview.prev_eq⟩

theorem prevOf_unlinkCol (hm : unlinkCol m x = some m') : prevOf m' .row = prevOf m .row := by
  simp only [unlinkCol, bind_eq_bind, bind_eq_some_iff] at hm
  obtain ⟨_, -, before, -, next, -, m1, hm1, next1, -, prev1, -, hm⟩ := hm
  have hview := view_of_setNext hm1
  rw [← hview.prev_eq]
  cases next1 with
  | none =>
    obtain rfl := some.inj hm
    rfl
  | some next1 => rw [(view_of_setPrev hm).prev_eq, update_of_ne (by decide)]

/-! ## One call -/

section

variable (hh : Holds A st h hist N L) (hr : 0 ≤ r) (hk : 0 ≤ k)
include hh hr hk

theorem Holds.clear_of_none (hnone : lastPut hist r k = none) :
    Ends (clear A · st h r k) (st, none, false) := by
  have hneg : ¬(r < 0 ∨ k < 0) := by omega
  simp only [clear, if_neg hneg]
  rcases hh.grid.lookup (s := st.alloc) A hr hk with ⟨-, hends⟩ | ⟨b, x, pre, suf, hends, hget,
    hx, hxk, -, hiff⟩
  · exact hends.bind (.of_eq fun _ => rfl)
  · obtain ⟨v, hv⟩ := hh.grid.live x hx
    have hxr : coord st.nodes .row x ≠ r := fun hxr => by
      obtain ⟨w, hw⟩ := hiff.2 hxr
      rw [(hh.value r k hr hk w).2 hw] at hnone
      cases hnone
    refine hends.bind (hget.bind (.of_eq fun fuel => ?_))
    simp [getKey_eq hv, hxr]

/-- The call on a cell with the node `x`. -/
theorem Holds.clear_of_some (hsome : lastPut hist r k ≠ none) :
    ∃ x pre suf, x ∈ N ∧ coord st.nodes .row x = r ∧ coord st.nodes .col x = k ∧
      Place st.nodes .row (L .row k) r pre suf x ∧ ∃ bound, ∀ fuel, bound ≤ fuel →
        clear A fuel st h r k = ((unlinkRow st.nodes x).bind (unlinkCol · x)).bind fun m =>
          some (⟨st.alloc, m⟩, some .element, true) := by
  have hneg : ¬(r < 0 ∨ k < 0) := by omega
  obtain ⟨w, hw⟩ := ne_none_iff_exists'.1 hsome
  have hw := (hh.value r k hr hk w).1 hw
  rcases hh.grid.lookup (s := st.alloc) A hr hk with ⟨hnone, -⟩ | ⟨b, x, pre, suf, hends, hget, hx,
    hxk, hplace, hiff⟩
  · exact (hnone w hw).elim
  · obtain ⟨v, hv⟩ := hh.grid.live x hx
    have hxr := hiff.1 ⟨w, hw⟩
    obtain ⟨b1, hb1⟩ := hends
    obtain ⟨b2, hb2⟩ := hget
    refine ⟨x, pre, suf, hx, hxr, hxk, hplace, max b1 b2, fun fuel hfuel => ?_⟩
    have hends := hb1 fuel (Nat.le_trans (Nat.le_max_left ..) hfuel)
    have hget := hb2 fuel (Nat.le_trans (Nat.le_max_right ..) hfuel)
    simp only at hends hget
    simp [clear, if_neg hneg, hends, hget, getKey_eq hv, hxr, bind_assoc]

end

/-! ## What the call should do -/

/-- The call returns whether the cell had a value. Then this cell has none, the others are as they
were, and the nodes before and behind the one that has been removed are linked with each other along
both axes. -/
def ClearsCell (A : Allocator σ) (st : State σ ο) (h : Nat) (N : Set Nat) (row col : Int) : Prop :=
  ∃ st' var found, Ends (clear A · st h row col) (st', var, found) ∧
    (found = true ↔ ∃ v, Ends (get A · st h row col) (some v)) ∧ Ends (get A · st' h row col) none ∧
    (∀ r c, 0 ≤ r → 0 ≤ c → ¬(r = row ∧ c = col) → ∀ v, Ends (get A · st h r c) v →
      Ends (get A · st' h r c) v) ∧
    ∀ x ∈ N, coord st.nodes .row x = row → coord st.nodes .col x = col → ∀ d,
      (∀ b, prevOf st.nodes d x = some b → nextOf st'.nodes d b = nextOf st.nodes d x) ∧
      ∀ b, nextOf st.nodes d x = some b → prevOf st'.nodes d b = prevOf st.nodes d x

theorem Holds.clearsCell_iff (hh : Holds A st h hist N L) (hr : 0 ≤ r) (hk : 0 ≤ k) :
    ClearsCell A st h N r k ↔ lastPut hist r k = none := by
  have hget := hh.get hr hk
  constructor
  · rintro ⟨st', var, found, ⟨bound, hbound⟩, -, -, -, hlinks⟩
    by_contra hsome
    obtain ⟨x, pre, suf, hx, hxr, hxk, hplace, bound', hclear⟩ := hh.clear_of_some hr hk hsome
    have hres := hbound (max bound bound') (Nat.le_max_left ..)
    simp only [hclear _ (Nat.le_max_right ..), bind_eq_some_iff] at hres
    obtain ⟨m2, ⟨m1, hm1, hm2⟩, heq⟩ := hres
    obtain ⟨⟨⟩, -⟩ := Prod.mk.inj (some.inj heq)
    obtain ⟨hnext, hprev⟩ := unlinkRow_cases hm1
    -- the next node is still linked back to `x`
    obtain ⟨b, hb⟩ := ne_none_iff_exists'.1 hnext
    have hback := (hlinks x hx hxr hxk .row).2 b hb
    simp only [prevOf_unlinkCol hm2, hprev] at hback
    have hline := (hh.grid.lines .row).links k
    have hnodup := (hh.grid.lines .row).nodup k
    rw [hplace.eq] at hline hnodup
    obtain ⟨hpre, hsuf⟩ := links_append.1 hline
    have hhead : suf.head? = some b := by rw [← hb, hpre.next_last hplace.last, or_none]
    obtain ⟨l, rfl⟩ := List.getLast?_eq_some_iff.1 hplace.last
    rw [hsuf.prev_head hhead, hplace.last, some_or, (links_concat.1 hpre).2.1, or_none] at hback
    have hmem : x ∈ l := mem_of_getLast? hback.symm
    exact (nodup_append.1 (nodup_append.1 hnodup).1).2.2 x hmem x (mem_singleton_self x) rfl
  · intro hnone
    rw [hnone] at hget
    refine ⟨st, none, false, hh.clear_of_none hr hk hnone, ?_, hget, fun _ _ _ _ _ v hv => hv, ?_⟩
    · refine ⟨nofun, fun ⟨v, hv⟩ => ?_⟩
      cases hget.unique hv
    · intro x hx hxr hxk
      obtain ⟨v, hv⟩ := hh.grid.live x hx
      rw [(hh.value r k hr hk v).2 ⟨x, hx, hxr, hxk, hv⟩] at hnone
      cases hnone

/-- On a matrix reached by puts, the call clears a cell as it should if and only if there was no put
for the cell. -/
theorem clearsCell_iff_none (A : Allocator σ) (s : σ) (calls : List (Put ο))
    (hcalls : ∀ q ∈ calls, 0 ≤ q.row ∧ 0 ≤ q.col) (hs : A.Supplies (requests [] calls + 1) s) :
      ∃ h st0 st N L, new A ⟨s, fun _ => none⟩ = some (h, st0) ∧ Ends (run A · h calls st0) st ∧
      Grid st.nodes h N L ∧ ∀ row col, 0 ≤ row → 0 ≤ col →
        (ClearsCell A st h N row col ↔ lastPut calls.reverse row col = none) := by
  obtain ⟨h, st0, N0, L0, hnew, hh0, hs0⟩ := Holds.new (ο := ο) hs
  obtain ⟨st, N, L, hrun, hh, -⟩ := hh0.run (n := 0) hcalls hs0
  rw [append_nil] at hh
  exact ⟨h, st0, st, N, L, hnew, hrun, hh.grid, fun row col hrow hcol =>
    hh.clearsCell_iff hrow hcol⟩

/-- The only node of a column: the call has no result, with any bound for its loops. -/
theorem not_clearsCell_single : ∃ st0 st, new (ο := Nat) counter ⟨0, fun _ => none⟩ =
    some (0, st0) ∧ put counter 9 st0 0 0 0 (some 5) = some (st, none) ∧
    get counter 9 st 0 0 0 = some (some (some 5)) ∧ (∀ fuel, clear counter fuel st 0 0 0 = none) ∧
      ∀ N, ¬ClearsCell counter st 0 N 0 0 := by
  refine ⟨_, _, rfl, rfl, rfl, ?_⟩
  refine and_iff_left_of_imp (fun hclear N => ?_) |>.2 fun fuel => ?_
  · rintro ⟨st', var, found, ⟨bound, hbound⟩, -⟩
    cases (hclear bound).symm.trans (hbound bound (Nat.le_refl bound))
  · match fuel with
    | 0 => rfl
    | 1 => rfl
    | 2 => rfl
    | fuel + 3 => rfl

theorem clearsCell_iff_none_single : ∃ h st0 st N L, new counter ⟨0, fun _ => none⟩ =
    some (h, st0) ∧ Ends (run counter · h [⟨0, 0, some 5⟩] st0) st ∧ Grid st.nodes h N L ∧
    ¬ClearsCell counter st h N 0 0 ∧ ClearsCell counter st h N 0 1 := by
  obtain ⟨h, st0, st, N, L, hnew, hrun, g, hiff⟩ :=
    clearsCell_iff_none counter 0 [⟨0, 0, some 5⟩] (by simp) (counter_supplies ..)
  refine ⟨h, st0, st, N, L, hnew, hrun, g, fun hclears => ?_,
    (hiff 0 1 (by decide) (by decide)).2 rfl⟩
  cases (hiff 0 0 (by decide) (by decide)).1 hclears

end CLangProject.SparseMatrix

import CLangProject.SparseMatrixGrid

/-!
# Sparse matrices: puts

A matrix `Holds` the values of the puts made on it if its nodes form a grid, a cell has a node if
and only if there was a put for it, the node has the last value put there, and the headers are those
of the rows and columns with a put. A put asks the allocator for its node and for the headers that
are missing, and `requests` counts them.
-/

namespace CLangProject.SparseMatrix

open List Option Function

variable {ο σ : Type} {A : Allocator σ} {st st' : State σ ο} {m m' : Cells (Node ο)}
    {a b c h : Nat} {i k : Int}
  {d e : Axis} {N N' : Set Nat} {L : Axis → Int → List Nat} {pre suf : List Nat} {v : Option ο}

/-! ## Allocation -/

/-- The allocator serves `n` more requests. -/
def Allocator.Supplies (A : Allocator σ) : Nat → σ → Prop
  | 0, _ => True
  | n + 1, s => ∃ a s', A.new s = some (a, s') ∧ A.Supplies n s'

variable {n : Nat} {s : σ} {r : Int}

theorem Allocator.Supplies.mono {n' : Nat} (hs : A.Supplies n s) (hn : n' ≤ n) :
    A.Supplies n' s := by
  induction n generalizing n' s with
  | zero =>
    obtain rfl := Nat.le_zero.1 hn
    trivial
  | succ n ih =>
    cases n' with
    | zero => trivial
    | succ n' =>
      obtain ⟨a, s', hnew, hs⟩ := hs
      exact ⟨a, s', hnew, ih hs (Nat.le_of_succ_le_succ hn)⟩

/-- The nodes are at addresses that the allocator knows to be in use. -/
def Owned (A : Allocator σ) (st : State σ ο) : Prop := ∀ a, st.nodes a ≠ none → a ∈ A.live st.alloc

theorem getData_ne_none (hm : m a ≠ none) : ∃ v, getData m a = some v := by
  obtain ⟨n, hn⟩ := ne_none_iff_exists'.1 hm
  exact ⟨n.datapointer, by rw [getData, hn, map_some]⟩

theorem ne_none_of_getData (hv : getData m a = some v) : m a ≠ none := by
  obtain ⟨n, hn, -⟩ := exists_node hv
  rw [hn]
  exact some_ne_none n

theorem Owned.of_getData (ho : Owned A st) (hdata : getData m' = getData st.nodes) :
    Owned A ⟨st.alloc, m'⟩ := by
  intro a ha
  obtain ⟨v, hv⟩ := getData_ne_none ha
  exact ho a (ne_none_of_getData (hdata ▸ hv))

theorem allocateMatrixNode_eq (ho : Owned A st) (hs : A.Supplies (n + 1) st.alloc) (row col : Int)
    (v : Option ο) : ∃ a st', allocateMatrixNode A st row col v = some (a, st') ∧
      Added st.nodes a row col v st'.nodes ∧ Owned A st' ∧ A.Supplies n st'.alloc := by
  obtain ⟨a, s, hnew, hs⟩ := hs
  have ha : st.nodes a = none := by
    by_contra hne
    exact A.new_notMem hnew (ho a hne)
  obtain ⟨m, hm, had⟩ := Added.alloc ha row col v
  refine ⟨a, ⟨s, m⟩, by simp [allocateMatrixNode, hnew, hm], had, fun b hb => ?_, hs⟩
  rw [A.live_new hnew]
  by_cases hba : b = a
  · exact .inl hba
  · obtain ⟨w, hw⟩ := getData_ne_none hb
    rw [had.data_of_ne hba] at hw
    exact .inr (ho b (ne_none_of_getData hw))

/-! ## Headers -/

/-- More nodes, all of them headers. The nodes that there were before are as they were. -/
structure Extends (m : Cells (Node ο)) (N : Set Nat) (m' : Cells (Node ο))
    (N' : Set Nat) : Prop where
  subset : N ⊆ N'
  data : ∀ {a v}, getData m a = some v → getData m' a = some v
  coord_eq : ∀ {a v}, getData m a = some v → ∀ d, coord m' d a = coord m d a
  old : ∀ {a v}, getData m a = some v → a ∈ N' → a ∈ N
  fresh : ∀ a ∈ N', a ∉ N → ∃ d, coord m' d a = -1

theorem Extends.refl (m : Cells (Node ο)) (N : Set Nat) : Extends m N m N :=
  ⟨subset_rfl, id, fun _ _ => rfl, fun _ ha => ha, fun _ ha hna => (hna ha).elim⟩

theorem Extends.trans {m'' : Cells (Node ο)} {N'' : Set Nat} (h1 : Extends m N m' N')
    (h2 : Extends m' N' m'' N'') (hlive : ∀ a ∈ N', ∃ v, getData m' a = some v) :
    Extends m N m'' N'' where
  subset := h1.subset.trans h2.subset
  data ha := h2.data (h1.data ha)
  coord_eq ha d := (h2.coord_eq (h1.data ha) d).trans (h1.coord_eq ha d)
  old ha haN := h1.old ha (h2.old (h1.data ha) haN)
  fresh a ha haN := by
    by_cases haN' : a ∈ N'
    · obtain ⟨v, hv⟩ := hlive a haN'
      obtain ⟨d, hd⟩ := h1.fresh a haN' haN
      exact ⟨d, (h2.coord_eq hv d).trans hd⟩
    · exact h2.fresh a ha haN'

theorem Extends.of_added {row col : Int} (N : Set Nat) (had : Added m a row col v m') :
    Extends m N m' N where
  subset := subset_rfl
  data hb := by rw [had.data_of_ne (had.ne hb), hb]
  coord_eq hb d := had.coord_of_ne (had.ne hb) d
  old _ hb := hb
  fresh _ hb hbN := (hbN hb).elim

/-- The node of the cell, with its value. -/
def HasValue (m : Cells (Node ο)) (N : Set Nat) (r c : Int) (v : Option ο) : Prop :=
  ∃ a ∈ N, coord m .row a = r ∧ coord m .col a = c ∧ getData m a = some v

/-- The headers are not cells. -/
theorem Extends.hasValue_iff {c : Int} (hext : Extends m N m' N')
    (hlive : ∀ a ∈ N, ∃ v, getData m a = some v) (hr : 0 ≤ r) (hc : 0 ≤ c) :
    HasValue m' N' r c v ↔ HasValue m N r c v := by
  constructor
  · rintro ⟨a, ha, har, hac, hav⟩
    have haN : a ∈ N := by
      by_contra haN
      obtain ⟨d, hd⟩ := hext.fresh a ha haN
      cases d <;> omega
    obtain ⟨w, hw⟩ := hlive a haN
    have hcoord := hext.coord_eq hw
    rw [hcoord] at har hac
    rw [hext.data hw] at hav
    exact ⟨a, haN, har, hac, hw.trans hav⟩
  · rintro ⟨a, ha, har, hac, hav⟩
    exact ⟨a, hext.subset ha, (hext.coord_eq hav _).trans har, (hext.coord_eq hav _).trans hac,
      hext.data hav⟩

/-- The matrix has the header `k` along `d`. -/
def HasHeader (m : Cells (Node ο)) (N : Set Nat) (d : Axis) (k : Int) : Prop :=
  ∃ b ∈ N, coord m d b = k ∧ coord m d.other b = -1

theorem Extends.hasHeader (hext : Extends m N m' N') (hlive : ∀ a ∈ N, ∃ v, getData m a = some v)
    (hh : HasHeader m N d k) : HasHeader m' N' d k := by
  obtain ⟨b, hb, hbk, hbi⟩ := hh
  obtain ⟨v, hv⟩ := hlive b hb
  exact ⟨b, hext.subset hb, (hext.coord_eq hv d).trans hbk, (hext.coord_eq hv d.other).trans hbi⟩

/-- The header of the line `k` along `d`, with the search for it. -/
theorem Grid.findHead_place (g : Grid m h N L) (d : Axis) (hk : 0 ≤ k) : ∃ pre suf c,
    Place m d (L d (-1)) k pre suf c ∧ Ends (getPrevious d m k · h) (some c) ∧ c ∈ N ∧
      coord m d.other c = -1 :=
  g.exists_place g.root_mem (g.root d) (g.root d.other) (by omega)

theorem Grid.findHead_find (g : Grid m h N L) (A : Allocator σ) (d : Axis) (missing : Bool)
    (hk : 0 ≤ k) :
    (∃ b ∈ N, coord m d b = k ∧ coord m d.other b = -1 ∧
      Ends (findHead A d missing .findHeader · ⟨s, m⟩ h k) (⟨s, m⟩, some b, true)) ∨
    ¬HasHeader m N d k ∧
      Ends (findHead A d missing .findHeader · ⟨s, m⟩ h k) (⟨s, m⟩, none, missing) := by
  obtain ⟨pre, suf, c, hplace, hget, hc, hci⟩ := g.findHead_place d hk
  obtain ⟨v, hv⟩ := g.live c hc
  by_cases hck : coord m d c = k
  · refine .inl ⟨c, hc, hck, hci, hget.bind (.of_eq fun fuel => ?_)⟩
    simp [getKey_eq hv, hck]
  · refine .inr ⟨fun ⟨b, hb, hbk, hbi⟩ => hck ?_, hget.bind (.of_eq fun fuel => ?_)⟩
    · rw [← g.eq_of_place hplace hb hbi hbk, hbk]
    · simp [getKey_eq hv, hck]

theorem Grid.findHead_create {x : Nat} (g : Grid st.nodes h N L) (ho : Owned A st) (d : Axis)
    (missing : Bool) (hk : 0 ≤ k) (hs : A.Supplies (x + n) st.alloc)
    (hx : ¬HasHeader st.nodes N d k → 1 ≤ x) :
    ∃ st' N' L' b, Ends (findHead A d missing .createHeader · st h k) (st', some b, true) ∧
      Grid st'.nodes h N' L' ∧ Owned A st' ∧ A.Supplies n st'.alloc ∧
      Extends st.nodes N st'.nodes N' ∧ b ∈ N' ∧ coord st'.nodes d b = k ∧
        coord st'.nodes d.other b = -1 ∧ ∀ a ∈ N', a ∈ N ∨ a = b := by
  obtain ⟨pre, suf, c, hplace, hget, hc, hci⟩ := g.findHead_place d hk
  obtain ⟨v, hv⟩ := g.live c hc
  by_cases hck : coord st.nodes d c = k
  · refine ⟨st, N, L, c, hget.bind (.of_eq fun fuel => ?_), g, ho, hs.mono (Nat.le_add_left ..),
      .refl .., hc, hck, hci,
      fun a ha => .inl ha⟩
    simp [getKey_eq hv, hck]
  · have hx : 1 ≤ x := hx fun ⟨b, hb, hbk, hbi⟩ =>
      hck (by rw [← g.eq_of_place hplace hb hbi hbk, hbk])
    obtain ⟨a, st1, hnew, had, ho', hs'⟩ :=
      allocateMatrixNode_eq ho (hs.mono (show n + 1 ≤ x + n by omega)) (d.header k).1
        (d.header k).2 none
    have haN := g.notMem_of_added had
    have hne : ∀ b ∈ N, b ≠ a := fun b hb heq => haN (heq ▸ hb)
    have hak : coord st1.nodes d a = k := by
      cases d
      · rw [had.row_eq, update_self, Axis.header]
      · rw [had.col_eq, update_self, Axis.header]
    have hai : coord st1.nodes d.other a = -1 := by
      cases d
      · rw [Axis.other, had.col_eq, update_self, Axis.header]
      · rw [Axis.other, had.row_eq, update_self, Axis.header]
    have hplace' : Place st1.nodes d (L d (-1)) k pre suf c :=
      hplace.congr fun x hx => had.coord_of_ne (hne x (((g.lines d).mem _ x).1 hx).1) d
    obtain ⟨m', L', hm', g', hcoord, hdata⟩ := (g.added had).addHeader had.data_self haN hk hak hai
      (by rw [had.next_eq, update_self]) (by rw [had.prev_eq, update_self]) hplace'
      (by rwa [had.coord_of_ne (hne c hc)])
    refine ⟨⟨st1.alloc, m'⟩, insert a N, L', a, hget.bind (.of_eq fun fuel => ?_), g',
      ho'.of_getData hdata, hs', ⟨Set.subset_insert a N, fun {b w} hb => ?_, fun {b w} hb e => ?_,
      fun {b w} hb hbN => ?_, ?_⟩, .inl rfl, ?_, ?_,
      fun b hb => hb.symm⟩
    · simp [getKey_eq hv, hck, hnew, hm']
    · rw [hdata, had.data_of_ne (had.ne hb), hb]
    · rw [hcoord, had.coord_of_ne (had.ne hb)]
    · exact hbN.resolve_left (had.ne hb)
    · rintro b (rfl | hb) hbN
      · exact ⟨d.other, by rw [hcoord, hai]⟩
      · exact (hbN hb).elim
    · rw [hcoord, hak]
    · rw [hcoord, hai]

/-! ## A put -/

structure Put (ο : Type) where
  row : Int
  col : Int
  value : Option ο

def Put.key : Axis → Put ο → Int
  | .row, q => q.row
  | .col, q => q.col

/-- The last value put at a cell. The last put is the first one on the list. -/
def lastPut (hist : List (Put ο)) (row col : Int) : Option (Option ο) :=
  (hist.find? fun q => q.row = row ∧ q.col = col).map Put.value

/-- The number of nodes that a put asks for: its own one, and headers that are missing. -/
def Put.requests (hist : List (Put ο)) (q : Put ο) : Nat :=
  1 + (if hist.any (·.col = q.col) then 0 else 1) + if hist.any (·.row = q.row) then 0 else 1

/-- The matrix `h` after the puts `hist`. -/
structure Holds (A : Allocator σ) (st : State σ ο) (h : Nat) (hist : List (Put ο)) (N : Set Nat)
    (L : Axis → Int → List Nat) : Prop where
  grid : Grid st.nodes h N L
  owned : Owned A st
  value : ∀ r c, 0 ≤ r → 0 ≤ c → ∀ v, lastPut hist r c = some v ↔ HasValue st.nodes N r c v
  headers : ∀ d k, 0 ≤ k → (HasHeader st.nodes N d k ↔ ∃ q ∈ hist, q.key d = k)

/-- The matrix after the allocation of the new node `a` and with the headers `b1` of its column and
`b2` of its row. -/
structure Ready (A : Allocator σ) (st : State σ ο) (N : Set Nat) (q : Put ο) (st' : State σ ο)
    (h : Nat) (N' : Set Nat) (L' : Axis → Int → List Nat) (a b1 b2 : Nat) : Prop where
  grid : Grid st'.nodes h N' L'
  owned : Owned A st'
  extends_ : Extends st.nodes N st'.nodes N'
  notMem : a ∉ N'
  data : getData st'.nodes a = some q.value
  row : coord st'.nodes .row a = q.row
  col : coord st'.nodes .col a = q.col
  colheader : b1 ∈ N' ∧ coord st'.nodes .col b1 = q.col ∧ coord st'.nodes .row b1 = -1
  rowheader : b2 ∈ N' ∧ coord st'.nodes .row b2 = q.row ∧ coord st'.nodes .col b2 = -1
  cases : ∀ b ∈ N', b ∈ N ∨ b = b1 ∨ b = b2

variable {hist : List (Put ο)}

theorem Holds.prepare {q : Put ο} (hh : Holds A st h hist N L) (hrow : 0 ≤ q.row) (hcol : 0 ≤ q.col)
    (hs : A.Supplies (q.requests hist + n) st.alloc) : ∃ a st1 st2 st3 N' L' b1 b2,
      allocateMatrixNode A st q.row q.col q.value = some (a, st1) ∧
      Ends (findColHead A .createHeader · st1 h q.col) (st2, some b1, true) ∧
      Ends (findRowHead A .createHeader · st2 h q.row) (st3, some b2, true) ∧
      Ready A st N q st3 h N' L' a b1 b2 ∧ A.Supplies n st3.alloc := by
  obtain ⟨x, hx⟩ : ∃ x, (if hist.any (·.col = q.col) then 0 else 1) = x := ⟨_, rfl⟩
  obtain ⟨y, hy⟩ : ∃ y, (if hist.any (·.row = q.row) then 0 else 1) = y := ⟨_, rfl⟩
  rw [Put.requests, hx, hy] at hs
  obtain ⟨a, st1, hnew, had, ho1, hs1⟩ :=
    allocateMatrixNode_eq hh.owned (hs.mono (show x + (y + n) + 1 ≤ 1 + x + y + n by omega))
      q.row q.col q.value
  have g1 := hh.grid.added had
  have e1 := Extends.of_added N had
  have hx : ¬HasHeader st1.nodes N .col q.col → 1 ≤ x := fun hno => by
    rw [← hx, if_neg]
    intro hany
    obtain ⟨q', hq', heq⟩ := any_eq_true.1 hany
    exact hno
      (e1.hasHeader hh.grid.live ((hh.headers .col q.col hcol).2 ⟨q', hq', of_decide_eq_true heq⟩))
  obtain ⟨st2, N2, L2, b1, hends2, g2, ho2, hs2, e2, hb1, hb1col, hb1row, hcases2⟩ :=
    g1.findHead_create ho1 .col false hcol hs1 hx
  have hy : ¬HasHeader st2.nodes N2 .row q.row → 1 ≤ y := fun hno => by
    rw [← hy, if_neg]
    intro hany
    obtain ⟨q', hq', heq⟩ := any_eq_true.1 hany
    exact hno (e2.hasHeader g1.live
      (e1.hasHeader hh.grid.live ((hh.headers .row q.row hrow).2 ⟨q', hq', of_decide_eq_true heq⟩)))
  obtain ⟨st3, N3, L3, b2, hends3, g3, ho3, hs3, e3, hb2, hb2row, hb2col, hcases3⟩ :=
    g2.findHead_create ho2 .row true hrow hs2 hy
  have ha2 := e2.data had.data_self
  obtain ⟨w, hw⟩ := g2.live b1 hb1
  refine ⟨a, st1, st2, st3, N3, L3, b1, b2, hnew, hends2, hends3,
    ⟨g3, ho3, (e1.trans e2 g1.live).trans e3 g2.live,
    fun haN => ?_, e3.data ha2, ?_, ?_, ⟨e3.subset hb1, ?_, ?_⟩, ⟨hb2, hb2row, hb2col⟩,
      fun b hb => ?_⟩, hs3⟩
  · exact hh.grid.notMem_of_added had (e2.old had.data_self (e3.old ha2 haN))
  · rw [e3.coord_eq ha2, e2.coord_eq had.data_self, had.row_eq, update_self]
  · rw [e3.coord_eq ha2, e2.coord_eq had.data_self, had.col_eq, update_self]
  · rw [e3.coord_eq hw, hb1col]
  · rw [e3.coord_eq hw]
    exact hb1row
  · rcases hcases3 b hb with hb | rfl
    · exact (hcases2 b hb).imp_right .inl
    · exact .inr (.inr rfl)

/-! ## The cell -/

theorem getPrevious_congr (hnext : nextOf m' d = nextOf m d) (hprev : prevOf m' d = prevOf m d)
    (hcoord : coord m' d = coord m d) (hdata : getData m' = getData m) (k : Int) (fuel node : Nat) :
    getPrevious d m' k fuel node = getPrevious d m k fuel node := by
  induction fuel generalizing node with
  | zero => rfl
  | succ fuel ih =>
    cases hv : getData m node with
    | none =>
      have hn : m node = none := map_eq_none_iff.1 hv
      have hn' : m' node = none := map_eq_none_iff.1 (hdata ▸ hv)
      simp [getPrevious, getKey, hn, hn']
    | some v =>
      have hv' : getData m' node = some v := hdata ▸ hv
      simp only [getPrevious, getKey_eq hv, getKey_eq hv', getNext_eq hv, getNext_eq hv',
        getPrev_eq hv, getPrev_eq hv', hnext, hprev, hcoord, bind_eq_bind, bind_some]
      split_ifs
      · cases nextOf m d node with
        | none => rfl
        | some next => exact ih next
      · rfl

theorem lastPut_cons (q : Put ο) (hist : List (Put ο)) (r c : Int) :
    lastPut (q :: hist) r c = if q.row = r ∧ q.col = c then some q.value else lastPut hist r c := by
  rw [lastPut, List.find?_cons]
  by_cases hq : q.row = r ∧ q.col = c
  · simp [hq]
  · rw [if_neg hq, decide_eq_false hq, lastPut]

section Step

variable {hist : List (Put ο)} {q : Put ο} {n b1 b2 : Nat} {L' : Axis → Int → List Nat}

section

variable (hr : Ready A st N q st' h N' L' a b1 b2) (hh : Holds A st h hist N L)
include hr hh

theorem Ready.hasHeader_iff (hk : 0 ≤ k) :
    HasHeader st'.nodes N' d k ↔ ∃ q' ∈ q :: hist, q'.key d = k := by
  rw [exists_mem_cons_iff, ← hh.headers d k hk]
  constructor
  · rintro ⟨b, hb, hbk, hbi⟩
    rcases hr.cases b hb with hbN | rfl | rfl
    · obtain ⟨v, hv⟩ := hh.grid.live b hbN
      rw [hr.extends_.coord_eq hv] at hbk hbi
      exact .inr ⟨b, hbN, hbk, hbi⟩
    · cases d with
      | row => exact absurd (hr.colheader.2.2.symm.trans hbk) (by omega)
      | col => exact .inl (hr.colheader.2.1.symm.trans hbk)
    · cases d with
      | row => exact .inl (hr.rowheader.2.1.symm.trans hbk)
      | col => exact absurd (hr.rowheader.2.2.symm.trans hbk) (by omega)
  · rintro (rfl | hh')
    · cases d with
      | row => exact ⟨b2, hr.rowheader⟩
      | col => exact ⟨b1, hr.colheader⟩
    · exact hr.extends_.hasHeader hh.grid.live hh'

/-- The cell has a node already, and this gets the value. -/
theorem Ready.overwrite (hc : c ∈ N')
    (hrow : coord st'.nodes .row c = q.row) (hcol : coord st'.nodes .col c = q.col) :
    ∃ m', setData st'.nodes c q.value = some m' ∧ Holds A ⟨st'.alloc, m'⟩ h (q :: hist) N' L' := by
  obtain ⟨w, hw⟩ := hr.grid.live c hc
  obtain ⟨m', hm', hview⟩ := (View.refl st'.nodes).setData hw q.value
  have hlive : ∀ b, (∃ v, getData m' b = some v) ↔ ∃ v, getData st'.nodes b = some v := fun b => by
    rw [hview.data_eq]
    by_cases hb : b = c
    · subst hb
      rw [update_self]
      exact ⟨fun _ => ⟨w, hw⟩, fun _ => ⟨q.value, rfl⟩⟩
    · rw [update_of_ne hb]
  refine ⟨m', hm', ?_, fun b hb => ?_, fun r c' hr' hc' v => ?_, fun d k hk => ?_⟩
  · exact hr.grid.congr (fun _ _ _ => by rw [hview.next_eq]) (fun _ _ _ => by rw [hview.prev_eq])
      (fun _ _ _ => by rw [hview.pos_eq]) fun b hb => (hlive b).2 (hr.grid.live b hb)
  · obtain ⟨v, hv⟩ := (hlive b).1 (getData_ne_none hb)
    exact hr.owned b (ne_none_of_getData hv)
  · rw [lastPut_cons, HasValue, hview.pos_eq, hview.data_eq]
    split_ifs with hq
    · obtain ⟨rfl, rfl⟩ := hq
      constructor
      · rintro ⟨⟩
        exact ⟨c, hc, hrow, hcol, update_self ..⟩
      · rintro ⟨b, hb, hbr, hbc, hbv⟩
        have heq : b = c := hr.grid.eq_of_coord_eq hb hc fun d => by
          cases d
          · exact hbr.trans hrow.symm
          · exact hbc.trans hcol.symm
        rw [heq, update_self] at hbv
        exact hbv
    · rw [hh.value r c' hr' hc', ← hr.extends_.hasValue_iff hh.grid.live hr' hc']
      have hne : ∀ b, coord st'.nodes .row b = r → coord st'.nodes .col b = c' → b ≠ c :=
        fun b hbr hbc heq => by
        subst heq
        exact hq ⟨hrow.symm.trans hbr, hcol.symm.trans hbc⟩
      constructor
      · rintro ⟨b, hb, hbr, hbc, hbv⟩
        exact ⟨b, hb, hbr, hbc, by rw [update_of_ne (hne b hbr hbc), hbv]⟩
      · rintro ⟨b, hb, hbr, hbc, hbv⟩
        rw [update_of_ne (hne b hbr hbc)] at hbv
        exact ⟨b, hb, hbr, hbc, hbv⟩
  · rw [HasHeader, hview.pos_eq]
    exact hr.hasHeader_iff hh hk

/-- The cell gets the new node. -/
theorem Ready.insert {L'' : Axis → Int → List Nat} (hrow : 0 ≤ q.row) (hcol : 0 ≤ q.col)
    (hnone : ∀ v, ¬HasValue st'.nodes N' q.row q.col v)
    (g : Grid m h (insert a N') L'') (hcoord : coord m = coord st'.nodes)
    (hdata : getData m = getData st'.nodes) :
    Holds A ⟨st'.alloc, m⟩ h (q :: hist) (insert a N') L'' := by
  refine ⟨g, hr.owned.of_getData hdata, fun r c hr' hc' v => ?_, fun d k hk => ?_⟩
  · rw [lastPut_cons, HasValue, hcoord, hdata]
    split_ifs with hq
    · obtain ⟨rfl, rfl⟩ := hq
      constructor
      · rintro ⟨⟩
        exact ⟨a, .inl rfl, hr.row, hr.col, hr.data⟩
      · rintro ⟨b, rfl | hb, hbr, hbc, hbv⟩
        · exact hr.data.symm.trans hbv
        · exact (hnone v ⟨b, hb, hbr, hbc, hbv⟩).elim
    · rw [hh.value r c hr' hc', ← hr.extends_.hasValue_iff hh.grid.live hr' hc']
      constructor
      · rintro ⟨b, hb, hbv⟩
        exact ⟨b, .inr hb, hbv⟩
      · rintro ⟨b, rfl | hb, hbv⟩
        · exact (hq ⟨hr.row.symm.trans hbv.1, hr.col.symm.trans hbv.2.1⟩).elim
        · exact ⟨b, hb, hbv⟩
  · rw [← hr.hasHeader_iff hh hk, HasHeader, hcoord]
    constructor
    · rintro ⟨b, rfl | hb, hbk, hbi⟩
      · have hrow' := hr.row
        have hcol' := hr.col
        cases d <;> simp only [Axis.other] at hbi <;> omega
      · exact ⟨b, hb, hbk, hbi⟩
    · rintro ⟨b, hb, hbk⟩
      exact ⟨b, .inr hb, hbk⟩

end

theorem Holds.put (hh : Holds A st h hist N L) (hrow : 0 ≤ q.row) (hcol : 0 ≤ q.col)
    (hs : A.Supplies (q.requests hist + n) st.alloc) : ∃ st' N' L',
      Ends (put A · st h q.row q.col q.value)
        (st', if (lastPut hist q.row q.col).isSome then some .newnode else none) ∧
      Holds A st' h (q :: hist) N' L' ∧ A.Supplies n st'.alloc := by
  obtain ⟨a, st1, st2, st3, N', L', b1, b2, hnew, hends2, hends3, hr, hs'⟩ :=
    hh.prepare hrow hcol hs
  obtain ⟨pre, suf, c, hplace, hget, hc, hcrow⟩ :=
    hr.grid.exists_place (d := .col) hr.rowheader.1 hr.rowheader.2.2 hr.rowheader.2.1
      (show -1 ≤ q.col by omega)
  obtain ⟨w, hw⟩ := hr.grid.live c hc
  have hneg : ¬(q.row < 0 ∨ q.col < 0) := by omega
  have hvalue : ∀ v, lastPut hist q.row q.col = some v ↔ HasValue st3.nodes N' q.row q.col v :=
    fun v => by
    rw [hh.value _ _ hrow hcol, hr.extends_.hasValue_iff hh.grid.live hrow hcol]
  by_cases hck : coord st3.nodes .col c = q.col
  · obtain ⟨m', hm', hholds⟩ := hr.overwrite hh hc hcrow hck
    refine ⟨⟨st3.alloc, m'⟩, N', L', ?_, hholds, hs'⟩
    rw [(hvalue w).2 ⟨c, hc, hcrow, hck, hw⟩]
    simp only [SparseMatrix.put, if_neg hneg, hnew, bind_eq_bind, bind_some]
    refine hends2.bind (hends3.bind (hget.bind (.of_eq fun fuel => ?_)))
    simp [getKey_eq hw, hck, hm']
  · have hnone : ∀ v, ¬HasValue st3.nodes N' q.row q.col v := by
      rintro v ⟨b, hb, hbr, hbc, -⟩
      exact hck (by rw [← hr.grid.eq_of_place hplace hb hbr hbc, hbc])
    obtain ⟨pre', suf', c', hplace', hget', hc', hccol⟩ :=
      hr.grid.exists_place (d := .row) hr.colheader.1 hr.colheader.2.2 hr.colheader.2.1
        (show -1 ≤ q.row by omega)
    have hck' : coord st3.nodes .row c' ≠ q.row := fun heq => by
      obtain ⟨w', hw'⟩ := hr.grid.live c' hc'
      exact hnone w' ⟨c', hc', heq, hccol, hw'⟩
    have hlower : ∀ e, -1 ≤ coord st3.nodes e a := fun e => by
      have hrow' := hr.row
      have hcol' := hr.col
      cases e <;> omega
    have hheader : ∀ e, ∃ b ∈ N', coord st3.nodes e b = -1 ∧
        coord st3.nodes e.other b = coord st3.nodes e.other a := by
      intro e
      cases e with
      | row => exact ⟨b1, hr.colheader.1, hr.colheader.2.2, hr.colheader.2.1.trans hr.col.symm⟩
      | col => exact ⟨b2, hr.rowheader.1, hr.rowheader.2.2, hr.rowheader.2.1.trans hr.row.symm⟩
    rw [← hr.col] at hck
    rw [← hr.row] at hck'
    obtain ⟨m1, m2, L'', hm1, hm2, g, hcoord, hdata, hnext1, hprev1, hcoord1, hdata1⟩ :=
      hr.grid.addNode (d := .col) hr.data hr.notMem hlower hheader
        (by rw [Axis.other, hr.row, hr.col]; exact hplace) hck
        (by rw [Axis.other, hr.row, hr.col]; exact hplace') hck'
    have hget1 : Ends (getPreviousRow m1 q.row · b1) (some c') := by
      obtain ⟨bound, hbound⟩ := hget'
      refine ⟨bound, fun fuel hfuel => ?_⟩
      rw [← hbound fuel hfuel]
      exact getPrevious_congr hnext1 hprev1 (by rw [hcoord1]) hdata1 ..
    refine ⟨⟨st3.alloc, m2⟩, _, L'', ?_, hr.insert hh hrow hcol hnone g hcoord hdata, hs'⟩
    have hlast : lastPut hist q.row q.col = none := by
      by_contra hne
      obtain ⟨v, hv⟩ := ne_none_iff_exists'.1 hne
      exact hnone v ((hvalue v).1 hv)
    rw [hr.col] at hck
    rw [hlast]
    simp only [SparseMatrix.put, if_neg hneg, hnew, bind_eq_bind, bind_some]
    refine hends2.bind (hends3.bind (hget.bind ?_))
    simp only [getKey_eq hw, hck, hm1, bind_some, if_false]
    refine hget1.bind (.of_eq fun fuel => ?_)
    simp only [Axis.other] at hm2
    simp [hm2]

end Step

/-! ## Reading a cell -/

/-- The search for a cell from the header of its column. -/
theorem Grid.lookup (g : Grid m h N L) (A : Allocator σ) (hr : 0 ≤ r) (hk : 0 ≤ k) :
    (∀ v, ¬HasValue m N r k v) ∧ Ends (findColHead A .findHeader · ⟨s, m⟩ h k) (⟨s, m⟩,
      none, false) ∨
    ∃ b x pre suf, Ends (findColHead A .findHeader · ⟨s, m⟩ h k) (⟨s, m⟩, some b, true) ∧
      Ends (getPreviousRow m r · b) (some x) ∧ x ∈ N ∧ coord m .col x = k ∧
      Place m .row (L .row k) r pre suf x ∧ ((∃ v, HasValue m N r k v) ↔ coord m .row x = r) := by
  rcases g.findHead_find A .col false hk with ⟨b, hb, hbk, hbi, hends⟩ | ⟨hno, hends⟩
  · obtain ⟨pre, suf, x, hplace, hget, hx, hxk⟩ :=
      g.exists_place (d := .row) hb hbi hbk (show -1 ≤ r by omega)
    refine .inr ⟨b, x, pre, suf, hends, hget, hx, hxk, hplace, ?_, fun hxr => ?_⟩
    · rintro ⟨v, a, ha, har, hak, -⟩
      rw [← g.eq_of_place hplace ha hak har, har]
    · obtain ⟨v, hv⟩ := g.live x hx
      exact ⟨v, x, hx, hxr, hxk, hv⟩
  · refine .inl ⟨?_, hends⟩
    rintro v ⟨a, ha, -, hak, -⟩
    obtain ⟨b, hb, hbi, hbk⟩ := g.header a ha .row
    exact hno ⟨b, hb, hbk.trans hak, hbi⟩

theorem Holds.get (hh : Holds A st h hist N L) (hr : 0 ≤ r) (hk : 0 ≤ k) :
    Ends (get A · st h r k) (lastPut hist r k) := by
  have hneg : ¬(r < 0 ∨ k < 0) := by omega
  have hvalue := hh.value r k hr hk
  have hlast : (∀ v, ¬HasValue st.nodes N r k v) → lastPut hist r k = none := fun hnone => by
    by_contra hne
    obtain ⟨v, hv⟩ := ne_none_iff_exists'.1 hne
    exact hnone v ((hvalue v).1 hv)
  simp only [SparseMatrix.get, if_neg hneg]
  rcases hh.grid.lookup (s := st.alloc) A hr hk with ⟨hnone, hends⟩ | ⟨b, x, pre, suf, hends, hget,
    hx, hxk, -, hiff⟩
  · rw [hlast hnone]
    exact hends.bind (.of_eq fun _ => rfl)
  · obtain ⟨v, hv⟩ := hh.grid.live x hx
    refine hends.bind (hget.bind (.of_eq fun fuel => ?_))
    by_cases hxr : coord st.nodes .row x = r
    · rw [(hvalue v).2 ⟨x, hx, hxr, hxk, hv⟩]
      simp [getKey_eq hv, hxr, hv]
    · rw [hlast fun v hv => hxr (hiff.1 ⟨v, hv⟩)]
      simp [getKey_eq hv, hxr]

/-! ## Runs -/

def run (A : Allocator σ) (fuel h : Nat) : List (Put ο) → State σ ο → Option (State σ ο)
  | [], st => some st
  | q :: calls, st => do
    let (st, _) ← put A fuel st h q.row q.col q.value
    run A fuel h calls st

/-- The number of nodes that the puts ask for after those in `hist`. -/
def requests : (hist calls : List (Put ο)) → Nat
  | _, [] => 0
  | hist, q :: calls => q.requests hist + requests (q :: hist) calls

/-- A new matrix is the node `h`. -/
theorem Holds.new (hs : A.Supplies (n + 1) s) : ∃ h st N L,
    new A ⟨s, fun _ => none⟩ = some (h, st) ∧ Holds (ο := ο) A st h [] N L ∧
      A.Supplies n st.alloc := by
  have ho : Owned (ο := ο) A ⟨s, fun _ => none⟩ := fun _ ha => (ha rfl).elim
  obtain ⟨h, st, hnew, had, ho', hs'⟩ := allocateMatrixNode_eq ho hs (-1) (-1) none
  have hcoord : ∀ d, coord st.nodes d h = -1 := fun d => by
    cases d
    · rw [had.row_eq, update_self]
    · rw [had.col_eq, update_self]
  have hlines : ∀ d, Lines st.nodes d {h} (fun i => if i = -1 then [h] else []) := fun d => by
    refine ⟨fun i => ?_, fun i => ?_, fun i a => ?_⟩
    · split_ifs
      · exact ⟨by rw [had.prev_eq, update_self], by rw [had.next_eq, update_self]; rfl, trivial⟩
      · trivial
    · split_ifs
      · exact pairwise_singleton ..
      · exact .nil
    · split_ifs with hi
      · rw [mem_singleton, Set.mem_singleton_iff]
        exact ⟨fun ha => ⟨ha, by rw [ha, hcoord, hi]⟩, fun ha => ha.1⟩
      · refine ⟨nofun, ?_⟩
        rintro ⟨rfl, ha⟩
        exact (hi (ha.symm.trans (hcoord _))).elim
  refine ⟨h, st, {h}, fun _ i => if i = -1 then [h] else [], hnew,
    ⟨⟨?_, hlines, rfl, hcoord, ?_, ?_⟩, ho',
    fun r c hr hc v => ⟨nofun, ?_⟩, fun d k hk => ⟨?_, nofun⟩⟩, hs'⟩
  · rintro a rfl
    exact ⟨none, had.data_self⟩
  · rintro a rfl d
    rw [hcoord]
  · rintro a rfl d
    exact ⟨a, rfl, hcoord d, rfl⟩
  · rintro ⟨a, rfl, har, -⟩
    rw [hcoord] at har
    omega
  · rintro ⟨a, rfl, hak, -⟩
    rw [hcoord] at hak
    omega

theorem Holds.run {calls : List (Put ο)} (hh : Holds A st h hist N L)
    (hcalls : ∀ q ∈ calls, 0 ≤ q.row ∧ 0 ≤ q.col)
    (hs : A.Supplies (requests hist calls + n) st.alloc) :
    ∃ st' N' L', Ends (run A · h calls st) st' ∧ Holds A st' h (calls.reverse ++ hist) N' L' ∧
      A.Supplies n st'.alloc := by
  induction calls generalizing st hist N L with
  | nil => exact ⟨st, N, L, .of_eq fun _ => rfl, hh, hs.mono (Nat.le_add_left ..)⟩
  | cons q calls ih =>
    obtain ⟨⟨hrow, hcol⟩, hcalls⟩ := forall_mem_cons.1 hcalls
    rw [requests, Nat.add_assoc] at hs
    obtain ⟨st1, N1, L1, hput, hh1, hs1⟩ := hh.put hrow hcol hs
    obtain ⟨st', N', L', hrun, hh', hs'⟩ := ih hh1 hcalls hs1
    refine ⟨st', N', L', hput.bind hrun, ?_, hs'⟩
    rw [reverse_cons, append_assoc, singleton_append]
    exact hh'

/-- After any puts the nodes of the matrix stand in ordered lists along both axes, and a cell has
the last value put there. -/
theorem get_of_puts (A : Allocator σ) (s : σ) (calls : List (Put ο))
    (hcalls : ∀ q ∈ calls, 0 ≤ q.row ∧ 0 ≤ q.col) (hs : A.Supplies (requests [] calls + 1) s) :
      ∃ h st0 st N L, new A ⟨s, fun _ => none⟩ = some (h, st0) ∧ Ends (run A · h calls st0) st ∧
      Grid st.nodes h N L ∧ (∀ a ∈ N, ∀ b ∈ N, (∀ d, coord st.nodes d a = coord st.nodes d b) →
      a = b) ∧ ∀ row col, 0 ≤ row → 0 ≤ col → Ends (get A · st h row col) (lastPut calls.reverse
        row col) := by
  obtain ⟨h, st0, N0, L0, hnew, hh0, hs0⟩ := Holds.new (ο := ο) hs
  obtain ⟨st, N, L, hrun, hh, -⟩ := hh0.run (n := 0) hcalls hs0
  rw [append_nil] at hh
  exact ⟨h, st0, st, N, L, hnew, hrun, hh.grid, fun a ha b hb hab =>
    hh.grid.eq_of_coord_eq ha hb hab,
    fun row col hrow hcol => hh.get hrow hcol⟩

/-- An allocator that never uses an address again. -/
def counter : Allocator Nat where
  new n := some (n, n + 1)
  live n := {a | a < n}
  new_notMem := by
    rintro s a s' ⟨⟩
    exact Nat.lt_irrefl s
  live_new := by
    rintro s a s' ⟨⟩
    ext b
    exact Nat.lt_succ_iff_lt_or_eq.trans or_comm

theorem counter_supplies (n s : Nat) : counter.Supplies n s := by
  induction n generalizing s with
  | zero => trivial
  | succ n ih => exact ⟨s, s + 1, rfl, ih (s + 1)⟩

theorem get_of_puts_overwritten : ∃ h st0 st N L, new counter ⟨0, fun _ => none⟩ = some (h, st0) ∧
    Ends (run counter · h [⟨0, 0, some 5⟩, ⟨1, 0, some 6⟩, ⟨0, 0, some 7⟩] st0) st ∧
    Grid st.nodes h N L ∧ Ends (get counter · st h 0 0) (some (some 7)) ∧
      Ends (get counter · st h 1 1) none := by
  obtain ⟨h, st0, st, N, L, hnew, hrun, g, -, hget⟩ :=
    get_of_puts counter 0 [⟨0, 0, some 5⟩, ⟨1, 0, some 6⟩, ⟨0, 0, some 7⟩] (by simp)
      (counter_supplies ..)
  exact ⟨h, st0, st, N, L, hnew, hrun, g, hget 0 0 (by decide) (by decide),
    hget 1 1 (by decide) (by decide)⟩

end CLangProject.SparseMatrix

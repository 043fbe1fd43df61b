import CLangProject.WcUFind

/-!
# Union-find with a bound for the worst case: the forest

`Good` says what holds at a root, `Wf` that it holds at all of them. `join`
changes the links of three sorts of nodes only, the two roots and the children
of the second one (`Rewired`); where each of them points after the call tells
the new depth of every node, and so the new height.
-/

namespace CLangProject.WcUFind

open List Option Function

variable {ι : Type} {m m' : Mem ι} {a b : Nat} {p : Option Nat} {k : Nat}

/-! ## Fields -/

namespace Mem

open Pool (field_modify field_same)

@[simp] theorem read_setUp : (m.setUp a p).up = update m.up a p ∧ (m.setUp a p).list = m.list ∧
    (m.setUp a p).height = m.height ∧ (m.setUp a p).indegree = m.indegree :=
  ⟨field_modify Node.up, field_same Node.list rfl, field_same Node.height rfl,
  field_same Node.indegree rfl⟩

@[simp] theorem read_setList : (m.setList a p).up = m.up ∧
    (m.setList a p).list = update m.list a p ∧ (m.setList a p).height = m.height ∧
    (m.setList a p).indegree = m.indegree :=
  ⟨field_same Node.up rfl, field_modify Node.list, field_same Node.height rfl,
  field_same Node.indegree rfl⟩

@[simp] theorem read_setHeight : (m.setHeight a k).up = m.up ∧ (m.setHeight a k).list = m.list ∧
    (m.setHeight a k).height = update m.height a k ∧ (m.setHeight a k).indegree = m.indegree :=
  ⟨field_same Node.up rfl, field_same Node.list rfl, field_modify Node.height,
  field_same Node.indegree rfl⟩

@[simp] theorem read_setIndegree : (m.setIndegree a k).up = m.up ∧
    (m.setIndegree a k).list = m.list ∧ (m.setIndegree a k).height = m.height ∧
    (m.setIndegree a k).indegree = update m.indegree a k :=
  ⟨field_same Node.up rfl, field_same Node.list rfl, field_same Node.height rfl,
  field_modify Node.indegree⟩

/-- All nodes of a list point to `p`. -/
def setUps (m : Mem ι) (l : List Nat) (p : Option Nat) : Mem ι :=
  { m with node := fun a => if a ∈ l then { m.node a with up := p } else m.node a }

theorem up_setUps {l : List Nat} : (m.setUps l p).up a = if a ∈ l then p else m.up a := by
  by_cases h : a ∈ l <;> simp [up, setUps, h]

@[simp] theorem read_setUps {l : List Nat} : (m.setUps l p).list = m.list ∧
    (m.setUps l p).height = m.height ∧ (m.setUps l p).indegree = m.indegree := by
  refine ⟨funext fun a => ?_, funext fun a => ?_, funext fun a => ?_⟩ <;>
    by_cases h : a ∈ l <;> simp [list, height, indegree, setUps, h]

theorem setUps_nil : m.setUps [] p = m := by simp [setUps]

theorem setUps_cons {l : List Nat} : (m.setUp a p).setUps l p = m.setUps (a :: l) p := by
  unfold setUps setUp Pool.modify
  congr 1
  funext b
  by_cases hb : b = a
  · subst hb
    by_cases h : b ∈ l <;> simp [h]
  · by_cases h : b ∈ l <;> simp [h, hb]

end Mem

/-! ## The loops -/

variable {root1 : Nat} {fuel : Nat} {l : List Nat}

theorem hang_eq (h : Path m.list p l none) (hfuel : l.length ≤ fuel) :
    hang root1 fuel p m = some (m.setUps l (m.list root1)) := by
  induction l generalizing m p fuel with
  | nil =>
    obtain rfl : p = none := h
    rw [Mem.setUps_nil]
    cases fuel <;> rfl
  | cons t l ih =>
    obtain ⟨rfl, h⟩ := h
    obtain ⟨fuel, rfl⟩ :=
      Nat.exists_eq_succ_of_ne_zero (show fuel ≠ 0 by rw [length_cons] at hfuel; omega)
    have hrest : hang root1 fuel (m.list t) (m.setUp t (m.list root1)) =
        some ((m.setUp t (m.list root1)).setUps l ((m.setUp t (m.list root1)).list root1)) :=
      ih (by rw [Mem.read_setUp.2.1]; exact h) (by rw [length_cons] at hfuel; omega)
    rw [hang, Mem.read_setUp.2.1, hrest, Mem.read_setUp.2.1, Mem.setUps_cons]

theorem moveList_eq (root1 : Nat) {t : Nat} (h : Path m.list (m.list t) l none)
    (hfuel : l.length < fuel) :
    ∃ l' last, t :: l = l' ++ [last] ∧
      moveList root1 fuel t m = some (last, m.setUps (t :: l) (some root1)) := by
  induction l generalizing m t fuel with
  | nil =>
    obtain ⟨fuel, rfl⟩ := Nat.exists_eq_succ_of_ne_zero (Nat.pos_iff_ne_zero.1 hfuel)
    refine ⟨[], t, rfl, ?_⟩
    have hlist : m.list t = none := h
    rw [moveList, Mem.read_setUp.2.1, hlist, ← Mem.setUps_cons, Mem.setUps_nil]
  | cons t' l ih =>
    obtain ⟨ht, h⟩ := h
    obtain ⟨fuel, rfl⟩ := Nat.exists_eq_succ_of_ne_zero (show fuel ≠ 0 by omega)
    have hrest : ∃ l' last, t' :: l = l' ++ [last] ∧
        moveList root1 fuel t' (m.setUp t (some root1)) =
          some (last, (m.setUp t (some root1)).setUps (t' :: l) (some root1)) :=
      ih (by rw [Mem.read_setUp.2.1]; exact h) (by rw [length_cons] at hfuel; omega)
    obtain ⟨l', last, hl, hm⟩ := hrest
    refine ⟨t :: l', last, by rw [hl, cons_append], ?_⟩
    rw [moveList, Mem.read_setUp.2.1, ht]
    exact hm.trans (by rw [Mem.setUps_cons])

/-! ## The invariant -/

/-- The children of the root `r` are `l`. -/
structure Good (m : Mem ι) (N : List Nat) (r : Nat) (l : List Nat) : Prop where
  path : Path m.list (m.list r) l none
  mem_iff : ∀ x, x ∈ l ↔ x ∈ N ∧ m.up x = some r
  nodup : l.Nodup
  indegree_eq : m.indegree r = l.length
  le_height : ∀ x ∈ N, ∀ n, RunN m.up n x r → n ≤ m.height r
  height_mem : ∃ x ∈ N, RunN m.up (m.height r) x r
  length_one : m.height r = 1 → l.length = 1
  length_range : 2 ≤ m.height r → 1 ≤ l.length ∧ l.length ≤ m.height r

/-- The nodes `N` form a forest, with a good list at every root. -/
structure Wf (m : Mem ι) (N : List Nat) : Prop where
  holds : m.Holds N
  closed : ∀ x ∈ N, ∀ y, m.up x = some y → y ∈ N
  rooted : ∀ x ∈ N, ∃ n r, Depth m.up n x r
  good : ∀ r ∈ N, m.up r = none → ∃ l, Good m N r l

variable {N : List Nat} {r r1 r2 x : Nat} {n : Nat}

theorem Good.eq_nil (h : Good m N r l) (h0 : m.height r = 0) : l = [] := by
  refine eq_nil_iff_forall_not_mem.2 fun x hx => ?_
  obtain ⟨hxN, hup⟩ := (h.mem_iff x).1 hx
  have := h.le_height x hxN 1 (.step hup (.refl r))
  omega

theorem Good.head (h : Good m N r l) (hpos : 0 < m.height r) : ∃ c l', l = c :: l' ∧
    m.list r = some c := by
  have hne : l ≠ [] := fun hnil => by
    subst hnil
    rcases Nat.lt_or_ge 1 (m.height r) with hgt | hle
    · have := (h.length_range hgt).1
      simp at this
    · have := h.length_one (by omega)
      simp at this
  obtain ⟨c, l', rfl⟩ := exists_cons_of_ne_nil hne
  exact ⟨c, l', rfl, h.path.1⟩

variable {y : Nat} {up : Nat → Option Nat}

theorem ne_root (hr : up r = none) (hx : up x = some y) : x ≠ r := by
  rintro rfl
  rw [hr] at hx
  cases hx

/-- Where a step leads on there is no root. -/
theorem ne_root_of_run (hr : up r = none) (h : RunN up (n + 1) x y) : x ≠ r := by
  cases h with
  | step hs => exact ne_root hr hs

/-! ## Links that `join` changes -/

/-- The new links of the roots `r1` and `r2` are `p1` and `p2`, those of the
children of `r2` are `p3`. -/
structure Rewired (m m' : Mem ι) (N : List Nat) (r1 r2 : Nat) (p1 p2 p3 : Option Nat) : Prop where
  top1 : m'.up r1 = p1
  top2 : m'.up r2 = p2
  kids : ∀ z ∈ N, m.up z = some r2 → m'.up z = p3
  rest : ∀ z ∈ N, z ≠ r1 → z ≠ r2 → m.up z ≠ some r2 → m'.up z = m.up z
  lists : ∀ z ∈ N, z ≠ r1 → z ≠ r2 → m.up z ≠ some r2 → m'.list z = m.list z
  heights : ∀ z, z ≠ r1 → z ≠ r2 → m'.height z = m.height z
  indegrees : ∀ z, z ≠ r1 → z ≠ r2 → m'.indegree z = m.indegree z
  free : m'.freeList = m.freeList
  fresh : m'.next = m.next

/-- Two different roots. -/
structure Two (m : Mem ι) (N : List Nat) (r1 r2 : Nat) : Prop where
  wf : Wf m N
  mem1 : r1 ∈ N
  mem2 : r2 ∈ N
  root1 : m.up r1 = none
  root2 : m.up r2 = none
  ne : r1 ≠ r2

namespace Rewired

variable {p1 p2 p3 : Option Nat}

variable (h : Rewired m m' N r1 r2 p1 p2 p3) (ht : Two m N r1 r2)

include h ht

section

variable (hx : x ∈ N)
include hx

/-- A way on which no node is a child of the second root stays as it is. -/
theorem run {y : Nat} (hrun : RunN m.up n x y)
    (hkid : ∀ z j, RunN m.up (j + 1) z y → m.up z ≠ some r2) : RunN m'.up n x y :=
  hrun.congr (P := (· ∈ N)) hx (fun z y hz hy => ht.wf.closed z hz y hy) fun z j hz hz' =>
    h.rest z hz (ne_root_of_run ht.root1 hz') (ne_root_of_run ht.root2 hz') (hkid z j hz')

/-- Other trees stay as they are. -/
theorem other (hd : Depth m.up n x r) (hr1 : r ≠ r1) (hr2 : r ≠ r2) : Depth m'.up n x r := by
  have hr := RunN.mem ht.wf.closed hd.1 hx
  refine ⟨h.run ht hx hd.1 fun z j hrun hup => ?_, ?_⟩
  · exact hr2 ((Depth.unique ⟨hrun, hd.2⟩ ((depth_root ht.root2).step hup)).2)
  · rw [h.rest r hr hr1 hr2 (by rw [hd.2]; exact nofun), hd.2]

/-- The ways to the first root stay as they are. -/
theorem first (hrun : RunN m.up n x r1) : RunN m'.up n x r1 :=
  h.run ht hx hrun fun _ _ hz hup =>
    ht.ne ((Depth.unique ⟨hz, ht.root1⟩ ((depth_root ht.root2).step hup)).2)

/-- The ways to the second root stay as they are up to its children. -/
theorem second (hrun : RunN m.up (n + 1) x r2) :
    ∃ t ∈ N, m.up t = some r2 ∧ m'.up t = p3 ∧ RunN m'.up n x t := by
  obtain ⟨t, hxt, htr⟩ := hrun.last
  have htN := RunN.mem ht.wf.closed hxt hx
  refine ⟨t, htN, htr, h.kids t htN htr, h.run ht hx hxt fun z j hz hup => ?_⟩
  -- then `z` is a child of the root itself, and `t` would be the root
  have hzt : Depth m.up (j + 2) z r2 := ⟨hz.snoc htr, ht.root2⟩
  have := (hzt.unique ((depth_root ht.root2).step hup)).1
  omega

/-- Where the children of `q` come from. -/
theorem up_eq_iff {q : Nat} : m'.up x = some q ↔ x = r1 ∧ p1 = some q ∨ x = r2 ∧ p2 = some q ∨
      m.up x = some r2 ∧ p3 = some q ∨ m.up x ≠ some r2 ∧ m.up x = some q := by
  by_cases hx1 : x = r1
  · subst hx1
    simp [h.top1, ht.root1, ht.ne]
  · by_cases hx2 : x = r2
    · subst hx2
      simp [h.top2, ht.root2, hx1]
    · by_cases hup : m.up x = some r2
      · simp [h.kids x hx hup, hup, hx1, hx2]
      · simp [h.rest x hx hx1 hx2 hup, hup, hx1, hx2]

end

end Rewired

/-- The two trees are one, and the forest is as it should be. -/
def Joins (m : Mem ι) (N : List Nat) (r1 r2 : Nat) (m' : Mem ι) : Prop :=
  Wf m' N ∧ Merges m.up m'.up N r1 r2

/-- How deep the nodes of the two trees are afterwards, below the new root `q`. -/
structure Sinks (m m' : Mem ι) (N : List Nat) (r1 r2 q : Nat) (f1 f2 : Nat → Nat) : Prop where
  root : m'.up q = none
  first : ∀ x ∈ N, ∀ n, RunN m.up n x r1 → RunN m'.up (f1 n) x q
  second : ∀ x ∈ N, ∀ n, RunN m.up n x r2 → RunN m'.up (f2 n) x q

namespace Sinks

variable {p1 p2 p3 : Option Nat} {q : Nat} {f1 f2 : Nat → Nat}

theorem depth (hs : Sinks m m' N r1 r2 q f1 f2) (hx : x ∈ N) (hd : Depth m.up n x r)
    (hr : r = r1 ∨ r = r2) : ∃ k, Depth m'.up k x q := by
  rcases hr with rfl | rfl
  · exact ⟨f1 n, hs.first x hx n hd.1, hs.root⟩
  · exact ⟨f2 n, hs.second x hx n hd.1, hs.root⟩

variable (hs : Sinks m m' N r1 r2 q f1 f2) (h : Rewired m m' N r1 r2 p1 p2 p3) (ht : Two m N r1 r2)

include hs h ht

/-- The nodes below the new root are those of the two trees. -/
theorem cases (hq : q = r1 ∨ q = r2) (hx : x ∈ N) (hrun : RunN m'.up n x q) :
    (∃ k, RunN m.up k x r1 ∧ n = f1 k) ∨ ∃ k, RunN m.up k x r2 ∧ n = f2 k := by
  have hd : Depth m'.up n x q := ⟨hrun, hs.root⟩
  obtain ⟨k, r, hk⟩ := ht.wf.rooted x hx
  by_cases hr1 : r = r1
  · subst hr1
    exact .inl ⟨k, hk.1, (hd.unique ⟨hs.first x hx k hk.1, hs.root⟩).1⟩
  · by_cases hr2 : r = r2
    · subst hr2
      exact .inr ⟨k, hk.1, (hd.unique ⟨hs.second x hx k hk.1, hs.root⟩).1⟩
    · obtain ⟨-, rfl⟩ := hd.unique (h.other ht hx hk hr1 hr2)
      exact (hq.elim hr1 hr2).elim

theorem merges (hq : q = r1 ∨ q = r2) : Merges m.up m'.up N r1 r2 := by
  refine ⟨q, hq, fun x hx n r hd => ?_⟩
  by_cases hr : r = r1 ∨ r = r2
  · rw [if_pos hr]
    exact hs.depth hx hd hr
  · rw [if_neg hr]
    rw [not_or] at hr
    exact ⟨n, h.other ht hx hd hr.1 hr.2⟩

/-- A root other than the new one was a root before, with the same children. -/
theorem good_other (hr : r ∈ N) (hroot : m'.up r = none) (hrq : r ≠ q) : ∃ l, Good m' N r l := by
  -- a node of one of the two trees is below `q` now
  have hold : ∀ {x n}, x ∈ N → Depth m'.up n x r → Depth m.up n x r ∧ r ≠ r1 ∧ r ≠ r2 :=
    fun {x n} hx hd => by
    obtain ⟨k, s, hk⟩ := ht.wf.rooted x hx
    by_cases hs' : s = r1 ∨ s = r2
    · obtain ⟨j, hj⟩ := hs.depth hx hk hs'
      exact (hrq (hd.unique hj).2).elim
    · rw [not_or] at hs'
      obtain ⟨rfl, rfl⟩ := hd.unique (h.other ht hx hk hs'.1 hs'.2)
      exact ⟨hk, hs'⟩
  obtain ⟨hd, hr1, hr2⟩ := hold hr (depth_root hroot)
  obtain ⟨l, hl⟩ := ht.wf.good r hr hd.2
  have hkid : ∀ x ∈ N, m.up x = some r → x ≠ r1 ∧ x ≠ r2 ∧ m.up x ≠ some r2 := fun x _ hup =>
    ⟨ne_root ht.root1 hup, ne_root ht.root2 hup, fun hup' => hr2 (some.inj (hup.symm.trans hup'))⟩
  have hlist : m'.list r = m.list r := h.lists r hr hr1 hr2 (by rw [hd.2]; exact nofun)
  have hheight := h.heights r hr1 hr2
  refine ⟨l, ?_, fun x => ?_, hl.nodup, (h.indegrees r hr1 hr2).trans hl.indegree_eq,
    fun x hx n hrun => ?_, ?_, ?_, ?_⟩
  · rw [hlist]
    refine hl.path.congr fun z hz => ?_
    obtain ⟨hzN, hup⟩ := (hl.mem_iff z).1 hz
    obtain ⟨h1, h2, h3⟩ := hkid z hzN hup
    exact h.lists z hzN h1 h2 h3
  · rw [hl.mem_iff]
    refine and_congr_right fun hxN => ⟨fun hup => ?_, fun hup => ?_⟩
    · obtain ⟨h1, h2, h3⟩ := hkid x hxN hup
      exact (h.rest x hxN h1 h2 h3).trans hup
    · obtain ⟨hd', -⟩ := hold hxN ((depth_root hroot).step hup)
      obtain ⟨y, hy, hyr⟩ := hd'.parent
      rw [hy, hyr.eq_zero_iff.1 rfl]
  · rw [hheight]
    exact hl.le_height x hx n (hold hx ⟨hrun, hroot⟩).1.1
  · obtain ⟨x, hx, hrun⟩ := hl.height_mem
    exact ⟨x, hx, by rw [hheight]; exact (h.other ht hx ⟨hrun, hd.2⟩ hr1 hr2).1⟩
  · rw [hheight]
    exact hl.length_one
  · rw [hheight]
    exact hl.length_range

theorem wf (hp1 : ∀ y ∈ p1, y ∈ N) (hp2 : ∀ y ∈ p2, y ∈ N) (hp3 : ∀ y ∈ p3, y ∈ N)
    (hgood : Good m' N q l) : Wf m' N := by
  refine ⟨ht.wf.holds.of_eq h.free h.fresh, fun x hx y hy => ?_, fun x hx => ?_,
    fun r hr hroot => ?_⟩
  · by_cases hx1 : x = r1
    · subst hx1
      exact hp1 y (h.top1.symm.trans hy)
    · by_cases hx2 : x = r2
      · subst hx2
        exact hp2 y (h.top2.symm.trans hy)
      · by_cases hup : m.up x = some r2
        · exact hp3 y ((h.kids x hx hup).symm.trans hy)
        · exact ht.wf.closed x hx y ((h.rest x hx hx1 hx2 hup).symm.trans hy)
  · obtain ⟨n, r, hd⟩ := ht.wf.rooted x hx
    by_cases hr : r = r1 ∨ r = r2
    · obtain ⟨k, hk⟩ := hs.depth hx hd hr
      exact ⟨k, q, hk⟩
    · rw [not_or] at hr
      exact ⟨n, r, h.other ht hx hd hr.1 hr.2⟩
  · by_cases hrq : r = q
    · subst hrq
      exact ⟨l, hgood⟩
    · exact hs.good_other h ht hr hroot hrq

theorem joins (hq : q = r1 ∨ q = r2) (hp1 : ∀ y ∈ p1, y ∈ N) (hp2 : ∀ y ∈ p2, y ∈ N)
    (hp3 : ∀ y ∈ p3, y ∈ N) (hgood : Good m' N q l) : Joins m N r1 r2 m' :=
  ⟨hs.wf h ht hp1 hp2 hp3 hgood, hs.merges h ht hq⟩

end Sinks

/-! ## The new root -/

section Root

variable {p1 p2 p3 : Option Nat} {l1 l2 : List Nat} {q c : Nat} {f1 f2 : Nat → Nat}

theorem Sinks.good (hs : Sinks m m' N r1 r2 q f1 f2) (h : Rewired m m' N r1 r2 p1 p2 p3)
    (ht : Two m N r1 r2) (hq : q = r1 ∨ q = r2) (h1 : Good m N r1 l1) (h2 : Good m N r2 l2)
    (hbound1 : ∀ n ≤ m.height r1, f1 n ≤ m'.height q)
    (hbound2 : ∀ n ≤ m.height r2, f2 n ≤ m'.height q) (hmax : f1 (m.height r1) = m'.height q ∨
      f2 (m.height r2) = m'.height q)
    (hpath : Path m'.list (m'.list q) l none) (hmem : ∀ x, x ∈ l ↔ x ∈ N ∧ m'.up x = some q)
    (hnodup : l.Nodup) (hindegree : m'.indegree q = l.length)
    (hone : m'.height q = 1 → l.length = 1) (hrange : 2 ≤ m'.height q → 1 ≤ l.length ∧
      l.length ≤ m'.height q) : Good m' N q l := by
  refine ⟨hpath, hmem, hnodup, hindegree, fun x hx n hrun => ?_, ?_, hone, hrange⟩
  · rcases hs.cases h ht hq hx hrun with ⟨k, hk, hn⟩ | ⟨k, hk, hn⟩
    · exact hn ▸ hbound1 k (h1.le_height x hx k hk)
    · exact hn ▸ hbound2 k (h2.le_height x hx k hk)
  · rcases hmax with hmax | hmax
    · obtain ⟨x, hx, hrun⟩ := h1.height_mem
      exact ⟨x, hx, hmax ▸ hs.first x hx _ hrun⟩
    · obtain ⟨x, hx, hrun⟩ := h2.height_mem
      exact ⟨x, hx, hmax ▸ hs.second x hx _ hrun⟩

/-- The second root and its children point to a child of the first root. -/
theorem Rewired.sinks_lower (h : Rewired m m' N r1 r2 none (some c) (some c)) (ht : Two m N r1 r2)
    (hc : m'.up c = some r1) : Sinks m m' N r1 r2 r1 id fun n => if n = 0 then 2 else n + 1 := by
  refine ⟨h.top1, fun x hx n hrun => h.first ht hx hrun, fun x hx n hrun => ?_⟩
  cases n with
  | zero =>
    cases hrun
    exact .step h.top2 (.step hc (.refl r1))
  | succ n =>
    obtain ⟨t, -, -, htc, hrun'⟩ := h.second ht hx hrun
    rw [if_neg (Nat.succ_ne_zero n)]
    exact (hrun'.snoc htc).snoc hc

/-- The children of the second root point to the first one. -/
theorem Rewired.sinks_equal (h : Rewired m m' N r1 r2 none (some c) (some r1)) (ht : Two m N r1 r2)
    (hc : m'.up c = some r1) : Sinks m m' N r1 r2 r1 id fun n => if n = 0 then 2 else n := by
  refine ⟨h.top1, fun x hx n hrun => h.first ht hx hrun, fun x hx n hrun => ?_⟩
  cases n with
  | zero =>
    cases hrun
    exact .step h.top2 (.step hc (.refl r1))
  | succ n =>
    obtain ⟨t, -, -, htc, hrun'⟩ := h.second ht hx hrun
    rw [if_neg (Nat.succ_ne_zero n)]
    exact hrun'.snoc htc

/-- The second root is alone. -/
theorem Rewired.sinks_single (h : Rewired m m' N r1 r2 none (some r1) p3) (ht : Two m N r1 r2)
    (halone : ∀ x ∈ N, m.up x ≠ some r2) : Sinks m m' N r1 r2 r1 id fun n => n + 1 := by
  refine ⟨h.top1, fun x hx n hrun => h.first ht hx hrun, fun x hx n hrun => ?_⟩
  cases n with
  | zero =>
    cases hrun
    exact .step h.top2 (.refl r1)
  | succ n =>
    obtain ⟨t, htN, htr, -⟩ := h.second ht hx hrun
    exact (halone t htN htr).elim

/-- The second root stays root, above the first one and its own children. -/
theorem Rewired.sinks_below (h : Rewired m m' N r1 r2 (some r2) none (some r1))
    (ht : Two m N r1 r2) :
    Sinks m m' N r1 r2 r2 (· + 1) fun n => if n = 0 then 0 else n + 1 := by
  refine ⟨h.top2, fun x hx n hrun => (h.first ht hx hrun).snoc h.top1, fun x hx n hrun => ?_⟩
  cases n with
  | zero =>
    cases hrun
    exact .refl r2
  | succ n =>
    obtain ⟨t, -, -, htc, hrun'⟩ := h.second ht hx hrun
    rw [if_neg (Nat.succ_ne_zero n)]
    exact (hrun'.snoc htc).snoc h.top1

end Root

/-! ## The cases of `join` -/

theorem Good.length_le (h : Good m N r l) : l.length ≤ N.length :=
  (h.nodup.subperm fun x hx => ((h.mem_iff x).1 hx).1).length_le

theorem Good.not_mem (h : Good m N r l) {q : Nat} (hq : m.up q = none) : q ∉ l := fun hmem => by
  have hup := ((h.mem_iff q).1 hmem).2
  rw [hq] at hup
  cases hup

section Cases

variable {p1 p2 p3 : Option Nat} {l1 l2 : List Nat} {c : Nat}
  (ht : Two m N r1 r2) (h1 : Good m N r1 l1) (h2 : Good m N r2 l2)

theorem Good.rewired (h2 : Good m N r2 l2) (ht : Two m N r1 r2) (htop1 : m'.up r1 = p1)
    (htop2 : m'.up r2 = p2) (hup : ∀ z, z ≠ r1 → z ≠ r2 → m'.up z = if z ∈ l2 then p3 else m.up z)
    (hlist : ∀ z, z ≠ r1 → z ≠ r2 → z ∉ l2 → m'.list z = m.list z)
    (hheight : ∀ z, z ≠ r1 → z ≠ r2 → m'.height z = m.height z)
    (hindegree : ∀ z, z ≠ r1 → z ≠ r2 → m'.indegree z = m.indegree z)
    (hfree : m'.freeList = m.freeList) (hnext : m'.next = m.next) :
    Rewired m m' N r1 r2 p1 p2 p3 := by
  have hnot : ∀ {z}, m.up z ≠ some r2 → z ∉ l2 := fun hz hmem => hz ((h2.mem_iff _).1 hmem).2
  refine ⟨htop1, htop2, fun z hz hz' => ?_, fun z _ hz1 hz2 hz' => ?_, fun z _ hz1 hz2 hz' => ?_,
    hheight, hindegree, hfree, hnext⟩
  · rw [hup z (ne_root ht.root1 hz') (ne_root ht.root2 hz'), if_pos ((h2.mem_iff z).2 ⟨hz, hz'⟩)]
  · rw [hup z hz1 hz2, if_neg (hnot hz')]
  · exact hlist z hz1 hz2 (hnot hz')

include ht h1 h2

/-- The second tree is lower: it goes two levels below the first root. -/
theorem join_lower (hge : 2 ≤ m.height r1) (hlt : m.height r2 < m.height r1)
    (hfuel : l2.length ≤ fuel) :
    ∃ m', joinRoots fuel m r1 r2 = some m' ∧ Joins m N r1 r2 m' := by
  obtain ⟨c, l', rfl, hc⟩ := h1.head (by omega)
  obtain ⟨hcN, hcup⟩ := (h1.mem_iff c).1 mem_cons_self
  have hcr1 : some c ≠ some r1 := fun h => ne_root ht.root1 hcup (some.inj h)
  have hc2 : m.up c ≠ some r2 := fun h => ht.ne (some.inj (hcup.symm.trans h))
  obtain ⟨m', hm'⟩ : ∃ m', (m.setUps l2 (some c)).setUp r2 (some c) = m' := ⟨_, rfl⟩
  have hrew : Rewired m m' N r1 r2 none (some c) (some c) := by
    refine h2.rewired ht ?_ (by simp [← hm']) (fun z _ hz2 => ?_) (fun z _ _ _ => by simp [← hm'])
      (fun z _ _ => by simp [← hm']) (fun z _ _ => by simp [← hm']) (by rw [← hm']; rfl)
      (by rw [← hm']; rfl)
    · rw [← hm', Mem.read_setUp.1, update_of_ne ht.ne, Mem.up_setUps, if_neg (h2.not_mem ht.root1),
        ht.root1]
    · rw [← hm', Mem.read_setUp.1, update_of_ne hz2, Mem.up_setUps]
  have hsink := hrew.sinks_lower ht
    ((hrew.rest c hcN (ne_root ht.root1 hcup) (ne_root ht.root2 hcup) hc2).trans hcup)
  have hheight : m'.height r1 = m.height r1 := by simp [← hm']
  have hgood : Good m' N r1 (c :: l') := by
    refine hsink.good hrew ht (.inl rfl) h1 h2 (fun n hn => ?_) (fun n hn => ?_) (.inl hheight.symm)
      (by simpa [← hm'] using h1.path) (fun x => ?_) h1.nodup
      (by simpa [← hm'] using h1.indegree_eq)
      (by rw [hheight]; exact h1.length_one) (by rw [hheight]; exact h1.length_range)
    · rw [hheight]
      exact hn
    · rw [hheight]
      split <;> omega
    · rw [h1.mem_iff]
      refine and_congr_right fun hx => ?_
      rw [hrew.up_eq_iff ht hx]
      have : m.up x = some r1 → m.up x ≠ some r2 := fun h h' => ht.ne (some.inj (h.symm.trans h'))
      simp only [reduceCtorEq, and_false, hcr1, false_or]
      exact ⟨fun h => ⟨this h, h⟩, And.right⟩
  have hmem : ∀ y ∈ some c, y ∈ N := by
    rintro y ⟨⟩
    exact hcN
  refine ⟨m', ?_, hsink.joins hrew ht (.inl rfl) nofun hmem hmem hgood⟩
  rw [joinRoots, if_pos hge, if_pos hlt, hang_eq h2.path hfuel, hc, ← hm']
  simp [hc]

/-- The children of the second root join those of the first one. -/
theorem joins_equal {last : Nat} {l' : List Nat} (hl2 : l2 = l' ++ [last])
    (hrew : Rewired m m' N r1 r2 none (m.list r2) (some r1))
    (hlist : ∀ z, z ≠ r1 → m'.list z = if z = last then m.list r1 else m.list z)
    (hlist1 : m'.list r1 = m.list r2) (hindegree : m'.indegree r1 = m.indegree r1 + m.indegree r2)
    (hheight : m'.height r1 = m.height r1) (hge : 2 ≤ m.height r1) (heq : m.height r2 = m.height r1)
    (hle : m.indegree r1 + m.indegree r2 ≤ m.height r1) : Joins m N r1 r2 m' := by
  obtain ⟨t, l'', hl, htl⟩ := h2.head (by omega)
  obtain ⟨htN, htup⟩ := (h2.mem_iff t).1 (by rw [hl]; exact mem_cons_self)
  have hsink := Rewired.sinks_equal (htl ▸ hrew) ht (hrew.kids t htN htup)
  have hdisj : ∀ x ∈ l2, x ∉ l1 := fun x hx hx' =>
    ht.ne (some.inj (((h1.mem_iff x).1 hx').2.symm.trans ((h2.mem_iff x).1 hx).2))
  have hr1 : ∀ x ∈ l1 ++ l2, x ≠ r1 := fun x hx => by
    rintro rfl
    rcases mem_append.1 hx with hx | hx
    · exact h1.not_mem ht.root1 hx
    · exact h2.not_mem ht.root1 hx
  have hpath : Path m'.list (m'.list r1) (l2 ++ l1) none := by
    refine path_append.2 ⟨m.list r1, ?_, h1.path.congr fun x hx => ?_⟩
    · have hold := h2.path
      have hnodup := h2.nodup
      rw [hl2] at hold hnodup ⊢
      rw [hlist1]
      refine hold.relink (fun x hx => ?_) ?_
      · rw [hlist x (hr1 x (by simp [hl2, hx])), if_neg]
        rintro rfl
        exact (nodup_append.1 hnodup).2.2 x hx x (mem_singleton_self x) rfl
      · rw [hlist last (hr1 last (by simp [hl2])), if_pos rfl]
    · rw [hlist x (hr1 x (mem_append_left _ hx)), if_neg]
      rintro rfl
      exact hdisj x (by simp [hl2]) hx
  have hlen : (l2 ++ l1).length = m.indegree r1 + m.indegree r2 := by
    rw [length_append, h1.indegree_eq, h2.indegree_eq, Nat.add_comm]
  have hgood : Good m' N r1 (l2 ++ l1) := by
    refine hsink.good hrew ht (.inl rfl) h1 h2 (fun n hn => ?_) (fun n hn => ?_)
      (.inl hheight.symm) hpath
      (fun x => ?_) (h2.nodup.append h1.nodup hdisj) (hindegree.trans hlen.symm) (fun h => ?_)
      fun _ => ⟨?_, ?_⟩
    · rw [hheight]
      exact hn
    · rw [hheight]
      split <;> omega
    · rw [mem_append, h1.mem_iff, h2.mem_iff, ← and_or_left]
      refine and_congr_right fun hx => ?_
      rw [hrew.up_eq_iff ht hx, htl]
      have hne : t ≠ r1 := hr1 t (by simp [hl])
      by_cases hx2 : m.up x = some r2 <;> simp [hx2, hne]
    · rw [hheight] at h
      omega
    · rw [length_append, hl, length_cons]
      omega
    · rw [hlen, hheight]
      exact hle
  refine hsink.joins hrew ht (.inl rfl) nofun ?_ ?_ hgood
  · intro y hy
    obtain rfl := some.inj (htl.symm.trans hy)
    exact htN
  · rintro y ⟨⟩
    exact ht.mem1

/-- The first root becomes the only child of the second one. -/
theorem joins_below (hrew : Rewired m m' N r1 r2 (some r2) none (some r1))
    (hlist1 : m'.list r1 = none) (hlist2 : m'.list r2 = some r1) (hindegree : m'.indegree r2 = 1)
    (hheight : m'.height r2 = m.height r1 + 1) (hpos : 0 < m.height r1)
    (hle : m.height r2 ≤ m.height r1) : Joins m N r1 r2 m' := by
  have hsink := hrew.sinks_below ht
  have hgood : Good m' N r2 [r1] := by
    refine hsink.good hrew ht (.inr rfl) h1 h2 (fun n hn => ?_) (fun n hn => ?_) (.inl hheight.symm)
      ⟨hlist2, hlist1⟩ (fun x => ?_) (nodup_singleton r1) hindegree (fun _ => rfl) fun _ =>
        ⟨le_rfl, ?_⟩
    · rw [hheight]
      omega
    · rw [hheight]
      split <;> omega
    · rw [mem_singleton]
      refine ⟨?_, fun ⟨hx, hup⟩ => ?_⟩
      · rintro rfl
        exact ⟨ht.mem1, hrew.top1⟩
      · rw [hrew.up_eq_iff ht hx] at hup
        simpa [ht.ne] using hup
    · rw [hheight]
      exact Nat.succ_le_of_lt (Nat.succ_pos _)
  refine hsink.joins hrew ht (.inr rfl) ?_ nofun ?_ hgood
  · rintro y ⟨⟩
    exact ht.mem2
  · rintro y ⟨⟩
    exact ht.mem1

theorem join_equal (hge : 2 ≤ m.height r1) (heq : m.height r2 = m.height r1)
    (hfuel : l2.length ≤ fuel) :
    ∃ m', joinRoots fuel m r1 r2 = some m' ∧ Joins m N r1 r2 m' := by
  obtain ⟨t, l, rfl, htl⟩ := h2.head (by omega)
  obtain ⟨l', last, hl, hmove⟩ := moveList_eq r1 h2.path.2 hfuel
  have hr1 := h2.not_mem ht.root1
  have hr2 := h2.not_mem ht.root2
  have hlast : last ∈ t :: l := by simp [hl]
  have hlast1 : last ≠ r1 := fun h => hr1 (h ▸ hlast)
  have hlast2 : last ≠ r2 := fun h => hr2 (h ▸ hlast)
  have hjoin : joinRoots fuel m r1 r2 = joinEqual fuel m r1 r2 := by
    rw [joinRoots, if_pos hge, if_neg (by omega)]
  rw [hjoin, joinEqual, htl, bind_eq_bind, bind_some, hmove]
  simp only [bind_eq_bind, bind_some]
  split
  next hle =>
    refine ⟨_, rfl, joins_equal ht h1 h2 hl (h2.rewired ht ?_ ?_ (fun z hz1 hz2 => ?_)
      (fun z hz1 hz2 hz => ?_)
      (fun z _ _ => by simp) (fun z hz1 _ => by simp [hz1]) rfl rfl) (fun z hz1 =>
      ?_) ?_ (by simp) (by simp) hge heq (by simpa using hle)⟩
    · simp [Mem.up_setUps, ht.ne, hr1, ht.root1]
    · simp [htl, hlast2.symm]
    · simp [Mem.up_setUps, hz2]
    · have hzl : z ≠ last := fun h => hz (h ▸ hlast)
      simp [hz1, hzl]
    · by_cases hz : z = last <;> simp [hz1, hz, hlast1]
    · simp [hlast2.symm]
  next hgt =>
    refine ⟨_, rfl, joins_below ht h1 h2 (h2.rewired ht ?_ ?_ (fun z hz1 hz2 => ?_)
      (fun z hz1 hz2 hz => ?_)
      (fun z _ hz2 => by simp [hz2]) (fun z hz1 hz2 => by simp [hz1, hz2]) rfl rfl) ?_ (by
        simp) (by simp)
      (by simp [heq]) (by omega) (by omega)⟩
    · simp
    · simp [Mem.up_setUps, ht.ne.symm, hr2, ht.root2]
    · simp [Mem.up_setUps, hz1]
    · have hzl : z ≠ last := fun h => hz (h ▸ hlast)
      simp [hz1, hz2, hzl]
    · simp [ht.ne]

/-- Two single nodes. -/
theorem join_single (h0 : m.height r1 = 0) (h0' : m.height r2 = 0) :
    ∃ m', joinRoots fuel m r1 r2 = some m' ∧ Joins m N r1 r2 m' := by
  obtain rfl := h1.eq_nil h0
  obtain rfl := h2.eq_nil h0'
  refine ⟨_, by rw [joinRoots, if_neg (by omega), if_pos h0], ?_⟩
  obtain ⟨m', hm'⟩ : ∃ m', (((m.setHeight r1 1).setIndegree r1 1).setList r1 (some r2)).setUp r2
    (some r1) = m' :=
    ⟨_, rfl⟩
  rw [hm']
  have hrew : Rewired m m' N r1 r2 none (some r1) none := by
    refine h2.rewired ht ?_ (by simp [← hm']) (fun z _ hz2 => by simp [← hm', hz2])
      (fun z hz1 _ _ => by simp [← hm', hz1]) (fun z hz1 _ => by simp [← hm', hz1])
      (fun z hz1 _ => by simp [← hm', hz1]) (by rw [← hm']; rfl) (by rw [← hm']; rfl)
    simp [← hm', ht.ne, ht.root1]
  have hsink := hrew.sinks_single ht fun x hx hup => by simpa using (h2.mem_iff x).2 ⟨hx, hup⟩
  have hlist2 : m.list r2 = none := h2.path
  have hheight : m'.height r1 = 1 := by simp [← hm']
  have hgood : Good m' N r1 [r2] := by
    refine hsink.good hrew ht (.inl rfl) h1 h2 (fun n hn => ?_) (fun n hn => ?_) (.inr ?_)
      ⟨by simp [← hm'], ?_⟩ (fun x => ?_) (nodup_singleton r2) (by simp [← hm']) (fun _ =>
      rfl) fun h => ?_
    · rw [hheight, id]
      omega
    · rw [hheight]
      omega
    · rw [hheight, h0']
    · simp [← hm', ht.ne.symm, hlist2, Path]
    · rw [mem_singleton]
      constructor
      · rintro rfl
        exact ⟨ht.mem2, hrew.top2⟩
      · rintro ⟨hx, hup⟩
        rw [hrew.up_eq_iff ht hx] at hup
        have hkid : m.up x ≠ some r1 := fun h => by simpa using (h1.mem_iff x).2 ⟨hx, h⟩
        simpa [hkid] using hup
    · omega
  refine hsink.joins hrew ht (.inl rfl) (by simp) ?_ (by simp) hgood
  rintro y ⟨⟩
  exact ht.mem1

/-- The first tree has height 1. -/
theorem join_one (hone : m.height r1 = 1) (hle : m.height r2 ≤ 1) :
    ∃ m', joinRoots fuel m r1 r2 = some m' ∧ Joins m N r1 r2 m' := by
  have hroots : joinRoots fuel m r1 r2 = some (putBelow (m.setUps l2 (some r1)) r1 r2 2) := by
    rw [joinRoots, if_neg (by omega), if_neg (by omega)]
    split
    next h2one =>
      obtain ⟨t, l, rfl, htl⟩ := h2.head (by omega)
      obtain rfl := length_eq_zero_iff.1 (Nat.succ.inj (h2.length_one h2one))
      rw [htl, bind_eq_bind, bind_some, ← Mem.setUps_cons, Mem.setUps_nil]
    next h2one =>
      obtain rfl := h2.eq_nil (by omega)
      rw [Mem.setUps_nil]
  have hr2 := h2.not_mem ht.root2
  refine ⟨_, hroots, joins_below ht h1 h2 (h2.rewired ht ?_ ?_ (fun z hz1 hz2 => ?_)
    (fun z hz1 hz2 hz => ?_)
      (fun z _ hz2 => ?_) (fun z hz1 hz2 => ?_) rfl rfl) ?_ ?_ ?_ ?_ (by omega) (by omega)⟩
  all_goals unfold putBelow
  · simp
  · simp [Mem.up_setUps, ht.ne.symm, hr2, ht.root2]
  · simp [Mem.up_setUps, hz1]
  · simp [hz1, hz2]
  · simp [hz2]
  · simp [hz2]
  · simp
  · simp [ht.ne.symm]
  · simp
  · simp [hone]

end Cases

/-! ## Calls -/

theorem Two.joinRoots (ht : Two m N r1 r2) (hle : m.height r2 ≤ m.height r1)
    (hfuel : N.length ≤ fuel) :
    ∃ m', joinRoots fuel m r1 r2 = some m' ∧ Joins m N r1 r2 m' := by
  obtain ⟨l1, h1⟩ := ht.wf.good r1 ht.mem1 ht.root1
  obtain ⟨l2, h2⟩ := ht.wf.good r2 ht.mem2 ht.root2
  have hlen : l2.length ≤ fuel := Nat.le_trans h2.length_le hfuel
  by_cases hge : 2 ≤ m.height r1
  · rcases Nat.lt_or_eq_of_le hle with hlt | heq
    · exact join_lower ht h1 h2 hge hlt hlen
    · exact join_equal ht h1 h2 hge heq hlen
  · by_cases h0 : m.height r1 = 0
    · exact join_single ht h1 h2 h0 (by omega)
    · exact join_one ht h1 h2 (by omega) (by omega)

theorem Wf.findRoot (h : Wf m N) (hx : x ∈ N) (hd : Depth m.up n x y) (hfuel : N.length < fuel) :
    UnionFind.findRoot m.up fuel x = some y :=
  UnionFind.findRoot_of_depth hd (Nat.lt_trans (hd.lt_length h.closed hx) hfuel)

/-- A call of `join` on nodes with different roots. -/
theorem Wf.join {x1 x2 n1 n2 : Nat} (h : Wf m N) (hx1 : x1 ∈ N) (hx2 : x2 ∈ N)
    (hd1 : Depth m.up n1 x1 r1) (hd2 : Depth m.up n2 x2 r2) (hne : r1 ≠ r2)
    (hfuel : N.length < fuel) :
    ∃ m', join fuel m x1 x2 = some m' ∧ Joins m N r1 r2 m' := by
  have ht : Two m N r1 r2 :=
    ⟨h, RunN.mem h.closed hd1.1 hx1, RunN.mem h.closed hd2.1 hx2, hd1.2, hd2.2, hne⟩
  rw [WcUFind.join, h.findRoot hx1 hd1 hfuel, h.findRoot hx2 hd2 hfuel, bind_eq_bind,
    bind_some, bind_some]
  by_cases hlt : m.height r1 < m.height r2
  · rw [if_pos hlt]
    have hswap : Two m N r2 r1 := ⟨h, ht.mem2, ht.mem1, ht.root2, ht.root1, hne.symm⟩
    obtain ⟨m', hm', hwf, hmerges⟩ := hswap.joinRoots (Nat.le_of_lt hlt) (Nat.le_of_lt hfuel)
    exact ⟨m', hm', hwf, hmerges.symm⟩
  · rw [if_neg hlt]
    exact ht.joinRoots (Nat.le_of_not_lt hlt) (Nat.le_of_lt hfuel)

/-- The nodes of the forest do not see a new node. -/
theorem Good.insert (h : Good m N r l) (hwf : Wf m N) (hr : r ∈ N) (hx : x ∉ N)
    (hsame : ∀ z ∈ N, m'.node z = m.node z) (hup : m'.up x = none) : Good m' (x :: N) r l := by
  have hclosed := fun z y (hz : z ∈ N) hy => hwf.closed z hz y hy
  have hup' : ∀ z ∈ N, m'.up z = m.up z := fun z hz => congrArg Node.up (hsame z hz)
  have hlist' : ∀ z ∈ N, m'.list z = m.list z := fun z hz => congrArg Node.list (hsame z hz)
  have hheight : m'.height r = m.height r := congrArg Node.height (hsame r hr)
  refine ⟨?_, fun z => ?_, h.nodup, (congrArg Node.indegree (hsame r hr)).trans h.indegree_eq,
    fun z hz n hrun => ?_, ?_, ?_, ?_⟩
  · rw [hlist' r hr]
    exact h.path.congr fun z hz => hlist' z ((h.mem_iff z).1 hz).1
  · rw [h.mem_iff, mem_cons]
    refine ⟨fun ⟨hz, hzr⟩ => ⟨.inr hz, (hup' z hz).trans hzr⟩, ?_⟩
    rintro ⟨rfl | hz, hzr⟩
    · rw [hup] at hzr
      cases hzr
    · exact ⟨hz, (hup' z hz).symm.trans hzr⟩
  · rw [hheight]
    rcases mem_cons.1 hz with rfl | hz
    · cases hrun with
      | refl => exact (hx hr).elim
      | step hs => rw [hup] at hs; cases hs
    · have hrun' : RunN m.up n z r := hrun.congr (P := (· ∈ N)) hz
        (fun z y hz hy => hclosed z y hz ((hup' z hz).symm.trans hy)) fun z _ hz _ =>
        (hup' z hz).symm
      exact h.le_height z hz n hrun'
  · obtain ⟨z, hz, hrun⟩ := h.height_mem
    refine ⟨z, mem_cons_of_mem x hz, ?_⟩
    rw [hheight]
    exact hrun.congr (P := (· ∈ N)) hz hclosed fun z _ hz _ => hup' z hz
  · rw [hheight]
    exact h.length_one
  · rw [hheight]
    exact h.length_range

/-- A new node is a tree of its own. -/
theorem good_new {item : ι} (hnode : m.node x = ⟨0, 0, item, none, none⟩) (hx : x ∈ N)
    (hclosed : ∀ z ∈ N, ∀ y, m.up z = some y → y ∈ N) (hnot : ∀ z ∈ N, m.up z ≠ some x) :
    Good m N x [] := by
  have hheight : m.height x = 0 := congrArg Node.height hnode
  refine ⟨congrArg Node.list hnode, fun z => iff_of_false not_mem_nil fun hz => hnot z hz.1 hz.2,
    nodup_nil, congrArg Node.indegree hnode, fun z hz n hrun => ?_, ⟨x, hx, ?_⟩, ?_, ?_⟩
  · -- the last link of a way would lead to `x`
    cases n with
    | zero => exact Nat.zero_le _
    | succ n =>
      obtain ⟨t, hzt, htx⟩ := hrun.last
      exact (hnot t (RunN.mem hclosed hzt hz) htx).elim
  · rw [hheight]
    exact .refl x
  · rw [hheight]
    exact nofun
  · rw [hheight]
    exact nofun

theorem Wf.insert (h : Wf m N) (item : ι) : (ufInsert m item).1 ∉ N ∧
    Wf (ufInsert m item).2 ((ufInsert m item).1 :: N) := by
  have hnew : (ufInsert m item).1 ∉ N := h.holds.fresh
  have hholds : (ufInsert m item).2.Holds ((ufInsert m item).1 :: N) :=
    h.holds.getNode.of_eq rfl rfl
  have hnode : (ufInsert m item).2.node (ufInsert m item).1 = ⟨0, 0, item, none, none⟩ := by
    simp [ufInsert]
  have hsame : ∀ z ∈ N, (ufInsert m item).2.node z = m.node z := fun z hz => by
    have hne : z ≠ (Pool.getNode m).1 := fun heq => hnew (heq ▸ hz)
    simp [ufInsert, hne]
  generalize (ufInsert m item).1 = x at *
  generalize (ufInsert m item).2 = m' at *
  have hup : m'.up x = none := congrArg Node.up hnode
  have hup' : ∀ z ∈ N, m'.up z = m.up z := fun z hz => congrArg Node.up (hsame z hz)
  have hclosed : ∀ z ∈ x :: N, ∀ y, m'.up z = some y → y ∈ x :: N := fun z hz y hy => by
    rcases mem_cons.1 hz with rfl | hz
    · rw [hup] at hy
      cases hy
    · exact mem_cons_of_mem x (h.closed z hz y ((hup' z hz).symm.trans hy))
  refine ⟨hnew, hholds, hclosed, fun z hz => ?_, fun r hr hroot => ?_⟩
  · rcases mem_cons.1 hz with rfl | hz
    · exact ⟨0, z, depth_root hup⟩
    · obtain ⟨n, r, hd⟩ := h.rooted z hz
      refine ⟨n, r, ?_, (hup' r (RunN.mem h.closed hd.1 hz)).trans hd.2⟩
      exact hd.1.congr (P := (· ∈ N)) hz (fun z y hz hy => h.closed z hz y hy) fun z _ hz _ =>
        hup' z hz
  · rcases mem_cons.1 hr with rfl | hr
    · refine ⟨[], good_new hnode mem_cons_self hclosed fun z hz hzr => ?_⟩
      rcases mem_cons.1 hz with rfl | hz
      · rw [hup] at hzr
        cases hzr
      · exact hnew (h.closed z hz r ((hup' z hz).symm.trans hzr))
    · obtain ⟨l, hl⟩ := h.good r hr ((hup' r hr).symm.trans hroot)
      exact ⟨l, hl.insert h hr hnew hsame hup⟩

end CLangProject.WcUFind

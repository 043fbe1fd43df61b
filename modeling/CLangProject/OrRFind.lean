import CLangProject.OrRBuild

/-!
# Queries of the orthogonal range tree

A query for `[a, b[` in dimension 1 picks nodes on the paths to `a` and to `b`
and asks their trees of dimension 0 (`Answers`). `rightPath` picks the points
below `b`, whatever `b` is. `leftPath` picks the points from `a` on, but it
assumes that the path to `a` ends at a leaf with a smaller key or at `a` itself.
That is so unless the path runs along the left edge of the tree down to the leaf
`NEGINFTY`, and there it depends on `a`: if `a` is `NEGINFTY` itself the leaf is
picked, which has no tree.
-/

namespace CLangProject.OrRTree

open LeafTree List

variable {ο : Type} {ps : List (Point ο)}

/-! ## Dimension 0 -/

/-- The points at the leaves with a key in `[a, b[`. -/
def leavesIn (a b : Key) (es : List (Key × List (Point ο))) : List (Point ο) :=
  (es.filter fun e => a ≤ e.1 ∧ e.1 < b).flatMap Prod.snd

theorem findPoints1d_ok {τ : Type} {a b : Key} {t : LeafTree τ Key (List (Point ο))} (hs : t.Search)
    (sp : Nat) (hsp : sp + t.height ≤ 200) (res : List (Point ο)) :
    ∃ res', findPoints1d a b sp t res = some res' ∧ res'.Perm (leavesIn a b t.toList ++ res) := by
  induction t generalizing sp res with
  | leaf c k points =>
    refine ⟨_, rfl, ?_⟩
    by_cases h : a ≤ k ∧ k < b
    · have hcopy : points.foldl (fun res p => p :: res) res = points.reverse ++ res := by simp
      rw [if_pos h, hcopy]
      simpa [leavesIn, toList, h] using (reverse_perm points).append_right res
    · simp [leavesIn, toList, h]
  | node c k l r ihl ihr =>
    obtain ⟨hl, hr, hsl, hsr⟩ := hs
    have hpos : 0 < l.height := by cases l <;> simp [height]
    simp only [height] at hsp
    have hsplit : leavesIn a b (node c k l r).toList =
        leavesIn a b l.toList ++ leavesIn a b r.toList := by
      simp [leavesIn, toList]
    rw [findPoints1d, hsplit]
    by_cases hb : b ≤ k
    · have hnone : leavesIn a b r.toList = [] := by
        rw [leavesIn, filter_eq_nil_iff.2, flatMap_nil]
        exact fun e he h => not_lt_of_ge (hb.trans (hr e he)) (of_decide_eq_true h).2
      rw [if_pos hb, if_pos (by omega), hnone, append_nil]
      exact ihl hsl _ (by omega) res
    rw [if_neg hb]
    by_cases ha : k ≤ a
    · have hnone : leavesIn a b l.toList = [] := by
        rw [leavesIn, filter_eq_nil_iff.2, flatMap_nil]
        exact fun e he h => not_le_of_gt (hl e he) (ha.trans (of_decide_eq_true h).1)
      rw [if_pos ha, if_pos (by omega), hnone, nil_append]
      exact ihr hsr _ (by omega) res
    · rw [if_neg ha, if_pos (by omega)]
      obtain ⟨res1, h1, hp1⟩ := ihr hsr (sp + 1) (by omega) res
      obtain ⟨res2, h2, hp2⟩ := ihl hsl sp (by omega) res1
      refine ⟨res2, by simp [h1, h2], hp2.trans ?_⟩
      rw [append_assoc]
      exact hp1.append_left _

theorem Filed.leavesIn_perm {dim : Nat} {es : List (Key × List (Point ο))} (h : Filed dim ps es)
    (a b : Key) :
    (leavesIn a b es).Perm (ps.filter fun p => a ≤ p.coordinate dim ∧ p.coordinate dim < b) := by
  have hflat : leavesIn a b es = (es.flatMap Prod.snd).filter fun p =>
      a ≤ p.coordinate dim ∧ p.coordinate dim < b := by
    have hcoord := h.coordinate
    clear h
    induction es with
    | nil => rfl
    | cons e es ih =>
      obtain ⟨he, hes⟩ := forall_mem_cons.1 hcoord
      have ih := ih hes
      unfold leavesIn at *
      rw [flatMap_cons, filter_append, ← ih, filter_cons]
      by_cases hk : a ≤ e.1 ∧ e.1 < b
      · have hall : e.2.filter (fun p => a ≤ p.coordinate dim ∧ p.coordinate dim < b) = e.2 :=
          filter_eq_self.2 fun p hp => by simpa [he p hp] using hk
        rw [if_pos (decide_eq_true hk), flatMap_cons, hall]
      · have hnone : e.2.filter (fun p => a ≤ p.coordinate dim ∧ p.coordinate dim < b) = [] :=
          filter_eq_nil_iff.2 fun p hp => by simpa [he p hp] using hk
        rw [if_neg (by simpa using hk), hnone, nil_append]
  rw [hflat]
  exact h.points.filter _

/-- The points that match a query in the coordinates up to `dim`. -/
def Matches (a b : Nat → Key) (dim : Nat) (p : Point ο) : Prop :=
  ∀ i ≤ dim, a i ≤ p.coordinate i ∧ p.coordinate i < b i

instance (a b : Nat → Key) (dim : Nat) (p : Point ο) : Decidable (Matches a b dim p) :=
  decidable_of_iff (∀ i < dim + 1, a i ≤ p.coordinate i ∧ p.coordinate i < b i)
    (by simp [Matches])

theorem buildOrRTree_zero (ps : List (Point ο)) (hne : ps ≠ []) :
    ∃ t : LeafTree Unit Key (List (Point ο)), buildOrRTree 0 ps = some (some t) ∧
      Filed 0 ps t.toList ∧ t.Search ∧ t.height ≤ 33 := by
  obtain ⟨es, hes, hf, -⟩ := entries_ok 0 ps (by simp)
  have hesne : es ≠ [] := by
    rintro rfl
    exact hne (nil_perm.1 hf.points)
  obtain ⟨t, ht, htl, hs, -, hh⟩ := hf.exists_tree hesne
  have hvisit := visit_ok (f := fun _ => some ()) (g := fun _ => ()) (fun _ => rfl) 0 (t := t)
    (by omega)
  have hid : t.mapTag (fun _ => ()) = t := by
    clear hvisit ht htl hs hh
    induction t with
    | leaf => rfl
    | node c k l r ihl ihr => exact congrArg₂ (node () k) ihl ihr
  rw [hid] at hvisit
  refine ⟨t, ?_, htl ▸ hf, hs, hh⟩
  cases ps with
  | nil => exact absurd rfl hne
  | cons p ps =>
    simp only [buildOrRTree, hes, ht, hvisit, Option.bind_eq_bind, Option.bind_some]
    rfl

theorem findPoints_zero (a b : Nat → Key) (ps : List (Point ο)) (hne : ps ≠ []) :
    ∃ tree, buildOrRTree 0 ps = some tree ∧ ∃ res, findPoints a b 0 tree = some res ∧
      res.Perm (ps.filter fun p => Matches a b 0 p) := by
  obtain ⟨t, ht, hf, hs, hh⟩ := buildOrRTree_zero ps hne
  have hnull : leftIsNull t = false := by
    cases t with
    | leaf c k points =>
      have hpts := hf.empty (k, points) (mem_singleton_self _)
      cases points with
      | nil => exact absurd (hpts rfl).1 (by decide)
      | cons => rfl
    | node => rfl
  obtain ⟨res, hres, hperm⟩ := findPoints1d_ok (a := a 0) (b := b 0) hs 0 (by omega) []
  refine ⟨some t, ht, res, ?_, ?_⟩
  · change (if leftIsNull t then none else findPoints1d (a 0) (b 0) 0 t []) = some res
    rw [hnull, hres]
    rfl
  · rw [append_nil] at hperm
    refine hperm.trans ((hf.leavesIn_perm (a 0) (b 0)).trans (Perm.of_eq ?_))
    exact filter_congr fun p _ => by simp [Matches]

/-! ## The paths of a query -/

section Paths

variable {τ τ' κ α : Type} [LinearOrder κ] {sub : List (Point ο) → Option (List (Point ο))}
  {w : Point ο → Bool} {x : Point ο → κ} {t : LeafTree Unit κ α} {a b m : κ}

section

variable (f : τ' → Option (List (Point ο))) (g : τ → τ')
include f g

theorem leftPath_mapTag (a : κ) (t : LeafTree τ κ α) (cur : List (Point ο)) :
    leftPath f a (t.mapTag g) cur = leftPath (f ∘ g) a t cur := by
  induction t generalizing cur with
  | leaf => simp [mapTag, leftPath, select]
  | node c k l r ihl ihr => simp [mapTag, leftPath, select, ihl, ihr]

theorem rightPath_mapTag (b : κ) (t : LeafTree τ κ α) (cur : List (Point ο)) :
    rightPath f b (t.mapTag g) cur = rightPath (f ∘ g) b t cur := by
  induction t generalizing cur with
  | leaf => simp [mapTag, rightPath, select]
  | node c k l r ihl ihr => simp [mapTag, rightPath, select, ihl, ihr]

theorem splitPath_mapTag (a b : κ)
    (t : LeafTree τ κ α) : splitPath f a b (t.mapTag g) = splitPath (f ∘ g) a b t := by
  induction t with
  | leaf => rfl
  | node c k l r ihl ihr =>
    simp only [mapTag, splitPath, leftPath_mapTag, rightPath_mapTag, ihl, ihr]

end

/-- A tree of lower dimension for a list of points gives those that match; there
is no tree for the empty list. -/
structure Answers (sub : List (Point ο) → Option (List (Point ο))) (w : Point ο → Bool) : Prop where
  nil : sub [] = none
  matching : ∀ ps, ps ≠ [] → ∃ res, sub ps = some res ∧ res.Perm (ps.filter w)

/-- The points `ps` are at the leaves of `t`, and every leaf but `m` has one. -/
structure Held (x : Point ο → κ) (m : κ) (ps : List (Point ο)) (t : LeafTree Unit κ α) : Prop where
  search : t.Search
  exact : t.Exact
  least : ∀ e ∈ t.toList, m ≤ e.1
  above : ∀ p ∈ ps, m < x p
  leaf : ∀ p ∈ ps, ∃ e ∈ t.toList, e.1 = x p
  point : ∀ e ∈ t.toList, m < e.1 → ∃ p ∈ ps, x p = e.1

variable {c : Unit} {k : κ} {l r : LeafTree Unit κ α}

theorem filter_lt_append (x : Point ο → κ) (k : κ) (ps : List (Point ο)) :
    (ps.filter (x · < k) ++ ps.filter (k ≤ x ·)).Perm ps := by
  have hperm := filter_append_perm (fun p => decide (x p < k)) ps
  have hcongr : ps.filter (fun p => !decide (x p < k)) = ps.filter (k ≤ x ·) :=
    filter_congr fun p _ => by rw [← decide_not, decide_eq_decide, not_lt]
  rwa [hcongr] at hperm

namespace Held

theorem left (h : Held x m ps (node c k l r)) : Held x m (ps.filter (x · < k)) l := by
  obtain ⟨hl, hr, hsl, -⟩ := id h.search
  refine ⟨hsl, h.exact.2.1, fun e he => h.least e (mem_append_left _ he),
    fun p hp => h.above p (mem_of_mem_filter hp), fun p hp => ?_, fun e he hm => ?_⟩
  · obtain ⟨hp, hlt⟩ := mem_filter.1 hp
    obtain ⟨e, he, hx⟩ := h.leaf p hp
    rcases mem_append.1 he with he | he
    · exact ⟨e, he, hx⟩
    · exact absurd (hx ▸ hr e he) (not_le_of_gt (of_decide_eq_true hlt))
  · obtain ⟨p, hp, hx⟩ := h.point e (mem_append_left _ he) hm
    exact ⟨p, mem_filter.2 ⟨hp, decide_eq_true (hx ▸ hl e he)⟩, hx⟩

theorem right (h : Held x m ps (node c k l r)) : Held x m (ps.filter (k ≤ x ·)) r := by
  obtain ⟨hl, hr, -, hsr⟩ := id h.search
  refine ⟨hsr, h.exact.2.2, fun e he => h.least e (mem_append_right _ he),
    fun p hp => h.above p (mem_of_mem_filter hp), fun p hp => ?_, fun e he hm => ?_⟩
  · obtain ⟨hp, hle⟩ := mem_filter.1 hp
    obtain ⟨e, he, hx⟩ := h.leaf p hp
    rcases mem_append.1 he with he | he
    · exact absurd (hx ▸ hl e he) (not_lt_of_ge (of_decide_eq_true hle))
    · exact ⟨e, he, hx⟩
  · obtain ⟨p, hp, hx⟩ := h.point e (mem_append_right _ he) hm
    exact ⟨p, mem_filter.2 ⟨hp, decide_eq_true (hx ▸ hr e he)⟩, hx⟩

theorem ne_nil (h : Held x m ps t) (hm : m < t.firstKey) : ps ≠ [] := by
  obtain ⟨o, ho⟩ := t.firstKey_mem
  obtain ⟨p, hp, -⟩ := h.point _ ho hm
  exact ne_nil_of_mem hp

theorem lt_key (h : Held x m ps (node c k l r)) : m < k := by
  obtain ⟨o, ho⟩ := l.firstKey_mem
  exact (h.least _ (mem_append_left _ ho)).trans_lt (h.search.1 _ ho)

theorem eq_key {o : α} (h : Held x m ps (LeafTree.leaf c k o)) : ∀ p ∈ ps, x p = k := fun p hp => by
  obtain ⟨e, he, hx⟩ := h.leaf p hp
  obtain rfl : e = (k, o) := by simpa [toList] using he
  exact hx.symm

end Held

/-- A part of the query adds the points `want` to the current list. -/
def Gives (r : Option (List (Point ο))) (want cur : List (Point ο)) : Prop :=
  ∃ res, r = some res ∧ res.Perm (want ++ cur)

variable {want want' cur : List (Point ο)} {P P1 P2 : Point ο → Bool}

theorem Gives.perm {r : Option (List (Point ο))} (hr : Gives r want cur) (hp : want'.Perm want) :
    Gives r want' cur := by
  obtain ⟨res, hres, hperm⟩ := hr
  exact ⟨res, hres, hperm.trans (hp.symm.append_right cur)⟩

theorem Gives.bind {r : Option (List (Point ο))} {f : List (Point ο) → Option (List (Point ο))}
    (hr : Gives r want cur) (hf : ∀ cur, Gives (f cur) want' cur) :
    Gives (r >>= f) (want' ++ want) cur := by
  obtain ⟨res, rfl, hperm⟩ := hr
  obtain ⟨res', hres', hperm'⟩ := hf res
  refine ⟨res', hres', hperm'.trans ?_⟩
  rw [append_assoc]
  exact hperm.append_left want'

theorem gives_nil (cur : List (Point ο)) : Gives (some cur) [] cur := ⟨cur, rfl, .rfl⟩

theorem gives_select (h : Answers sub w) (hps : ps ≠ []) (t : LeafTree Unit κ α)
    (cur : List (Point ο)) : Gives (select sub (fill x ps t) cur) (ps.filter w) cur := by
  obtain ⟨res, hres, hperm⟩ := h.matching ps hps
  refine ⟨joinList res cur, by simp [select, hres], ?_⟩
  have hjoin : joinList res cur = cur ++ res := by cases cur <;> rfl
  rw [hjoin]
  exact perm_append_comm.trans (hperm.append_right cur)

/-- What is wanted of the points below a node, left and right. -/
theorem filter_node (h1 : ∀ p, x p < k → P p = P1 p) (h2 : ∀ p, k ≤ x p → P p = P2 p) :
    (ps.filter P).Perm ((ps.filter (k ≤ x ·)).filter P2 ++ (ps.filter (x · < k)).filter P1) := by
  have hsplit := ((filter_lt_append x k ps).symm.filter P)
  rw [filter_append] at hsplit
  have hl : (ps.filter (x · < k)).filter P = (ps.filter (x · < k)).filter P1 :=
    filter_congr fun p hp => h1 p (of_decide_eq_true (mem_filter.1 hp).2)
  have hr : (ps.filter (k ≤ x ·)).filter P = (ps.filter (k ≤ x ·)).filter P2 :=
    filter_congr fun p hp => h2 p (of_decide_eq_true (mem_filter.1 hp).2)
  rw [hl, hr] at hsplit
  exact hsplit.trans perm_append_comm

theorem filter_left (h1 : ∀ p, x p < k → P p = P1 p) (h2 : ∀ p, k ≤ x p → P p = false) :
    (ps.filter P).Perm ((ps.filter (x · < k)).filter P1) := by
  have hboth : (ps.filter P).Perm ((ps.filter (k ≤ x ·)).filter (fun _ => false) ++ _) :=
    filter_node h1 h2
  simpa using hboth

theorem filter_right (h1 : ∀ p, x p < k → P p = false) (h2 : ∀ p, k ≤ x p → P p = P2 p) :
    (ps.filter P).Perm ((ps.filter (k ≤ x ·)).filter P2) := by
  have hboth : (ps.filter P).Perm (_ ++ (ps.filter (x · < k)).filter (fun _ => false)) :=
    filter_node h1 h2
  simpa using hboth

/-- The right path gives the points below `b`. -/
theorem rightPath_gives (h : Answers sub w) (ht : Held x m ps t) (hm : m < t.firstKey)
    (cur : List (Point ο)) :
    Gives (rightPath sub b (fill x ps t) cur) (ps.filter fun p => x p < b ∧ w p) cur := by
  induction t generalizing ps cur with
  | leaf c k o =>
    have hk := ht.eq_key
    rw [fill, rightPath]
    by_cases hb : k < b
    · rw [if_pos hb]
      refine (gives_select (x := x) h (ht.ne_nil hm) (leaf c k o) cur).perm (Perm.of_eq ?_)
      exact filter_congr fun p hp => by simp [hk p hp, hb]
    · rw [if_neg hb]
      refine (gives_nil cur).perm (Perm.of_eq (filter_eq_nil_iff.2 fun p hp => ?_))
      simp [hk p hp, hb]
  | node c k l r ihl ihr =>
    have hr : m < r.firstKey := ht.exact.1 ▸ ht.lt_key
    rw [fill, rightPath]
    rcases lt_trichotomy k b with hb | hb | hb
    · rw [if_pos hb]
      refine ((gives_select h (ht.left.ne_nil hm) l cur).bind
        fun cur => ihr ht.right hr cur).perm (filter_node ?_ fun _ _ => rfl)
      exact fun p hp => by simp [hp.trans hb]
    · rw [if_neg hb.not_lt, if_pos hb]
      refine (gives_select h (ht.left.ne_nil hm) l cur).perm (filter_left ?_ ?_)
      · exact fun p hp => by simp [hp.trans_eq hb]
      · exact fun p hp => by simp [hb ▸ hp]
    · rw [if_neg hb.not_gt, if_neg hb.ne']
      refine (ihl ht.left hm cur).perm (filter_left (fun _ _ => rfl) ?_)
      exact fun p hp => by simp [hb.le.trans hp]

/-- At a leaf on the path to `a` there is nothing to be found. -/
theorem Held.filter_leaf {o : α} (ht : Held x m ps (LeafTree.leaf c k o)) (ha : k < a ∨ k = m)
    (hP : ∀ p, P p → a ≤ x p) : ps.filter P = [] := by
  refine filter_eq_nil_iff.2 fun p hp hPp => ?_
  rcases ha with ha | rfl
  · exact not_le_of_gt ha (ht.eq_key p hp ▸ hP p hPp)
  · exact (ht.above p hp).ne' (ht.eq_key p hp)

section

variable (h : Answers sub w) (ht : Held x m ps t)
include h ht

/-- The left path gives the points from `a` on, if `a` is not `m` and the first
key is below `a` or is `m`. -/
theorem leftPath_gives (hne : a ≠ m) (ha : t.firstKey < a ∨ t.firstKey = m) (cur : List (Point ο)) :
    Gives (leftPath sub a (fill x ps t) cur) (ps.filter fun p => a ≤ x p ∧ w p) cur := by
  induction t generalizing ps cur with
  | leaf c k o =>
    have hka : k ≠ a := by
      rintro rfl
      exact ha.elim (lt_irrefl k) hne
    rw [fill, leftPath, if_neg hka]
    exact (gives_nil cur).perm (Perm.of_eq (ht.filter_leaf ha fun p hp =>
      (of_decide_eq_true hp).1))
  | node c k l r ihl ihr =>
    have hr : m < r.firstKey := ht.exact.1 ▸ ht.lt_key
    rw [fill, leftPath]
    rcases lt_trichotomy a k with hk | hk | hk
    · rw [if_pos hk]
      refine ((gives_select h (ht.right.ne_nil hr) r cur).bind
        fun cur => ihl ht.left ha cur).perm ((filter_node (fun _ _ => rfl) ?_).trans
          perm_append_comm)
      exact fun p hp => by simp [hk.le.trans hp]
    · rw [if_neg hk.not_lt, if_pos hk]
      refine (gives_select h (ht.right.ne_nil hr) r cur).perm (filter_right ?_ ?_)
      · exact fun p hp => by simp [hp.trans_eq hk.symm]
      · exact fun p hp => by simp [hk.trans_le hp]
    · rw [if_neg hk.not_gt, if_neg hk.ne']
      refine (ihr ht.right (.inl (ht.exact.1 ▸ hk)) cur).perm (filter_right ?_ fun _ _ => rfl)
      exact fun p hp => by simp [hp.trans hk]

theorem splitPath_gives (hne : a ≠ m) (ha : t.firstKey < a ∨ t.firstKey = m) :
    Gives (splitPath sub a b (fill x ps t)) (ps.filter fun p => a ≤ x p ∧ x p < b ∧ w p) [] := by
  induction t generalizing ps with
  | leaf c k o =>
    exact (gives_nil []).perm (Perm.of_eq (ht.filter_leaf ha fun p hp =>
      (of_decide_eq_true hp).1))
  | node c k l r ihl ihr =>
    have hr : m < r.firstKey := ht.exact.1 ▸ ht.lt_key
    have hleft := leftPath_gives h ht.left hne ha []
    rw [fill, splitPath]
    rcases lt_or_ge b k with hb | hb
    · rw [if_pos hb]
      refine (ihl ht.left ha).perm (filter_left (fun _ _ => rfl) ?_)
      exact fun p hp => by simp [not_lt_of_ge (hb.le.trans hp)]
    rw [if_neg hb.not_gt]
    rcases lt_trichotomy a k with hk | hk | hk
    · rw [if_neg hk.not_gt]
      rcases hb.lt_or_eq with hb | hb
      · rw [if_pos ⟨hk, hb⟩]
        refine (hleft.bind fun cur => rightPath_gives h ht.right hr cur).perm (filter_node ?_ ?_)
        · exact fun p hp => by simp [hp.trans hb]
        · exact fun p hp => by simp [hk.le.trans hp]
      · rw [if_neg fun h => hb.not_lt h.2, if_neg hk.ne]
        refine hleft.perm (filter_left ?_ ?_)
        · exact fun p hp => by simp [hp.trans_eq hb]
        · exact fun p hp => by simp [not_lt_of_ge (hb.symm.trans_le hp)]
    · rw [if_neg hk.not_gt, if_neg fun h => hk.not_lt h.1, if_pos hk]
      refine (rightPath_gives h ht.right hr []).perm (filter_right ?_ ?_)
      · exact fun p hp => by simp [not_le_of_gt (hp.trans_eq hk.symm)]
      · exact fun p hp => by simp [hk.trans_le hp]
    · rw [if_pos hk]
      refine (ihr ht.right (.inl (ht.exact.1 ▸ hk))).perm (filter_right ?_ fun _ _ => rfl)
      exact fun p hp => by simp [not_le_of_gt (hp.trans hk)]

/-- From `m` on, the left path ends at the leaf without a tree. -/
theorem leftPath_none (hm : t.firstKey = m)
    (cur : List (Point ο)) : leftPath sub m (fill x ps t) cur = none := by
  induction t generalizing ps cur with
  | leaf c k o =>
    obtain rfl : k = m := hm
    obtain rfl : ps = [] := eq_nil_iff_forall_not_mem.2 fun p hp =>
      (ht.above p hp).ne' (ht.eq_key p hp)
    simp [fill, leftPath, select, h.nil]
  | node c k l r ihl _ =>
    rw [fill, leftPath, if_pos ht.lt_key]
    cases select sub (fill x (ps.filter (k ≤ x ·)) r) cur with
    | none => rfl
    | some cur => exact ihl ht.left hm cur

/-- A query from `m` on has a result only if there is no point up to `b`. -/
theorem splitPath_low (hm : t.firstKey = m) :
    splitPath sub m b (fill x ps t) = if ∃ p ∈ ps, x p ≤ b then none else some [] := by
  induction t generalizing ps with
  | leaf c k o =>
    obtain rfl : k = m := hm
    rw [fill, splitPath, if_neg]
    rintro ⟨p, hp, -⟩
    exact (ht.above p hp).ne' (ht.eq_key p hp)
  | node c k l r ihl _ =>
    have hk := ht.lt_key
    rw [fill, splitPath]
    rcases lt_or_ge b k with hb | hb
    · have hex : (∃ p ∈ ps.filter (x · < k), x p ≤ b) ↔ ∃ p ∈ ps, x p ≤ b := by
        constructor
        · rintro ⟨p, hp, hle⟩
          exact ⟨p, mem_of_mem_filter hp, hle⟩
        · rintro ⟨p, hp, hle⟩
          exact ⟨p, mem_filter.2 ⟨hp, decide_eq_true (hle.trans_lt hb)⟩, hle⟩
      rw [if_pos hb, ihl ht.left hm]
      simp only [hex]
    · -- the first leaf on the right has a point, and its key is not above `b`
      obtain ⟨o, ho⟩ := r.firstKey_mem
      obtain ⟨p, hp, hx⟩ := ht.point _ (mem_append_right _ ho) (ht.exact.1 ▸ hk)
      have hp : ∃ p ∈ ps, x p ≤ b := ⟨p, hp, by rw [hx, ← ht.exact.1]; exact hb⟩
      rw [if_neg hb.not_gt, if_neg hk.not_gt, leftPath_none h ht.left hm, if_neg hk.ne, if_pos hp]
      split <;> rfl

end

end Paths

/-! ## Dimension 1 -/

/-- The trees of dimension 0. -/
theorem answers_zero (a b : Nat → Key) :
    Answers (fun ps : List (Point ο) => findPoints a b 0 ((buildOrRTree 0 ps).getD none))
      (fun p => Matches a b 0 p) := by
  refine ⟨rfl, fun ps hne => ?_⟩
  obtain ⟨tree, htree, res, hres, hperm⟩ := findPoints_zero a b ps hne
  exact ⟨res, by rw [htree]; exact hres, hperm⟩

theorem buildOrRTree_zero_eq (ps : List (Point ο)) :
    buildOrRTree 0 ps = some ((buildOrRTree 0 ps).getD none) := by
  cases ps with
  | nil => rfl
  | cons p ps =>
    obtain ⟨t, ht, -⟩ := buildOrRTree_zero (p :: ps) (cons_ne_nil p ps)
    rw [ht]
    rfl

/-- The search tree for coordinate 1. -/
theorem Filed.held {ptList : List (Point ο)} {t : LeafTree Unit Key (List (Point ο))}
    (hf : Filed 1 ptList t.toList) (hs : t.Search) (he : t.Exact)
    (hlow : ∀ p ∈ ptList, negInfty < p.coordinate 1) :
    Held (·.coordinate 1) negInfty ptList.reverse t := by
  have hpoint : ∀ e ∈ t.toList, ∀ p ∈ e.2, p ∈ ptList.reverse ∧ p.coordinate 1 = e.1 :=
    fun e he p hp => ⟨mem_reverse.2 (hf.points.mem_iff.1 (mem_flatMap.2 ⟨e, he, hp⟩)),
      hf.coordinate e he p hp⟩
  refine ⟨hs, he, fun e he => ?_, fun p hp => hlow p (mem_reverse.1 hp), fun p hp => ?_,
    fun e he hlt => ?_⟩
  · match hpts : e.2 with
    | [] => exact (hf.empty e he hpts).2.ge
    | p :: _ =>
      obtain ⟨hp, hx⟩ := hpoint e he p (hpts ▸ mem_cons_self)
      exact (hx ▸ hlow p (mem_reverse.1 hp)).le
  · obtain ⟨e, he, hpe⟩ := mem_flatMap.1 (hf.points.mem_iff.2 (mem_reverse.1 hp))
    exact ⟨e, he, (hpoint e he p hpe).2.symm⟩
  · match hpts : e.2 with
    | [] => exact absurd (hf.empty e he hpts).2 hlt.ne'
    | p :: _ => exact ⟨p, hpoint e he p (hpts ▸ mem_cons_self)⟩

/-- A query goes through a tree with the points at its leaves. -/
theorem query_one (ptList : List (Point ο)) (hne : ptList ≠ [])
    (hlow : ∀ p ∈ ptList, negInfty < p.coordinate 1) (a b : Nat → Key) :
    ∃ t : LeafTree Unit Key (List (Point ο)), t.firstKey = negInfty ∧
      Held (·.coordinate 1) negInfty ptList.reverse t ∧ query ptList a b 1 =
        splitPath (fun ps => findPoints a b 0 ((buildOrRTree 0 ps).getD none)) (a 1) (b 1)
          (fill (·.coordinate 1) ptList.reverse t) := by
  obtain ⟨es, hes, hf, hmem⟩ := entries_ok 1 ptList fun _ => hlow
  have hmem := hmem le_rfl
  obtain ⟨t, ht, rfl, hs, he, hh⟩ := hf.exists_tree (ne_nil_of_mem hmem)
  have hheld := hf.held hs he hlow
  obtain ⟨o, ho⟩ := t.firstKey_mem
  refine ⟨t, le_antisymm (hs.firstKey_le hmem) (hheld.least _ ho), hheld, ?_⟩
  have hinit := visit_ok (f := fun _ => some ([] : List (Point ο))) (g := fun _ => [])
    (fun _ => rfl) 0 (t := t) (by omega)
  have hattach : ptList.foldl (fun t p => attach 1 p t) (fill (·.coordinate 1) [] t) = _ :=
    attachAll [] ptList t
  rw [append_nil, fill_nil] at hattach
  have hlower := visit_ok buildOrRTree_zero_eq 0 (t := fill (·.coordinate 1) ptList.reverse t)
    (by rw [height_fill]; omega)
  have hbuild : buildOrRTree 1 ptList = some (some ((fill (·.coordinate 1) ptList.reverse t).mapTag
      fun ps => (buildOrRTree 0 ps).getD none)) := by
    cases ptList with
    | nil => exact absurd rfl hne
    | cons p ptList =>
      simp only [buildOrRTree, Nat.zero_add, hes, ht, hinit, hattach, hlower,
        Option.bind_eq_bind, Option.bind_some]
      rfl
  have hnode : leftIsNull ((fill (·.coordinate 1) ptList.reverse t).mapTag
      fun ps => (buildOrRTree 0 ps).getD none) = false := by
    cases t with
    | leaf c k points =>
      obtain ⟨rfl, rfl⟩ : negInfty = k ∧ [] = points := by simpa [toList] using hmem
      exact absurd (nil_perm.1 (by simpa [toList] using hf.points)) hne
    | node => rfl
  rw [query, hbuild]
  change (if leftIsNull _ then none else splitPath (findPoints a b 0) (a 1) (b 1) _) = _
  rw [hnode, splitPath_mapTag]
  rfl

/-- Two coordinates, of a point or of a corner of a box. -/
def pair (x y : Key) (i : Nat) : Key := if i = 0 then x else y

/-- Three points, two of them with the same coordinate 1. -/
def threePoints : List (Point Nat) :=
  [⟨pair (smallKey 1) (smallKey 2), 0⟩, ⟨pair (smallKey 3) (smallKey 2), 1⟩,
    ⟨pair (smallKey 2) (smallKey 5), 2⟩]

def onePoint : List (Point Nat) := [⟨pair (smallKey 1) (smallKey 1), 0⟩]

end CLangProject.OrRTree

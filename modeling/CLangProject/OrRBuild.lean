import CLangProject.OrRTree

/-!
# The trees that `build_or_r_tree` makes

`sort` returns one node for each value of the coordinate, with all points of that
value, in increasing order (`sort_ok`). So the search tree has the points at the
leaves with their coordinates as keys (`Filed`), and it is low enough for the
arrays of the traversals, since there are only `2 ^ 32` coordinates.

After all points have been attached, the list of a node is the list of points
whose search goes through it (`fill`).
-/

namespace CLangProject.OrRTree

open LeafTree List

variable {ο : Type} {dim : Nat} {ptList : List (Point ο)}

/-! ## `sort` -/

theorem keyList_eq (dim : Nat) (ptList : List (Point ο)) :
    keyList dim ptList = (ptList.map fun p => ⟨p.coordinate dim, p, []⟩).reverse := by
  rw [keyList, ← foldl_map (f := fun p : Point ο => (⟨p.coordinate dim, p, []⟩ : KeyNode ο))
    (g := fun list n => n :: list), foldl_flip_cons_eq_append', append_nil]

/-- Every node has the points with its key as their coordinate. -/
def Keyed (dim : Nat) (list : List (KeyNode ο)) : Prop :=
  ∀ n ∈ list, ∀ p ∈ n.points, p.coordinate dim = n.key

theorem collectEqual_ok {x : KeyNode ο} {list : List (KeyNode ο)}
    (hs : (x :: list).Pairwise fun y z => y.key ≤ z.key) (hnext : ∀ y ∈ list, y.next = [])
    (hk : Keyed dim (x :: list)) :
    (collectEqual x list).Pairwise (fun y z => y.key < z.key) ∧ Keyed dim (collectEqual x list) ∧
      (∀ n ∈ collectEqual x list, x.key ≤ n.key) ∧
        ((collectEqual x list).flatMap KeyNode.points).Perm
        ((x :: list).flatMap KeyNode.points) := by
  induction list generalizing x with
  | nil => exact ⟨pairwise_singleton _ x, hk, by simp [collectEqual], .rfl⟩
  | cons y list ih =>
    obtain ⟨hx, hs'⟩ := pairwise_cons.1 hs
    obtain ⟨hxk, hk'⟩ := forall_mem_cons.1 hk
    obtain ⟨hyk, hlist⟩ := forall_mem_cons.1 hk'
    obtain ⟨hynext, hnext⟩ := forall_mem_cons.1 hnext
    unfold collectEqual
    split
    case isTrue heq =>
      have hpoints : (x.point :: y.point :: x.next).Perm (x.points ++ y.points) := by
        rw [KeyNode.points, KeyNode.points, hynext, cons_append]
        exact (perm_append_singleton y.point x.next).symm.cons x.point
      have hmerged : ∀ p ∈ x.point :: y.point :: x.next, p.coordinate dim = x.key := fun p hp => by
        rcases mem_append.1 (hpoints.mem_iff.1 hp) with hp | hp
        · exact hxk p hp
        · exact (hyk p hp).trans heq.symm
      obtain ⟨hlt, hkeyed, hle, hperm⟩ := ih (x := { x with next := y.point :: x.next })
        (pairwise_cons.2 ⟨fun z hz => hx z (mem_cons_of_mem _ hz), (pairwise_cons.1 hs').2⟩) hnext
        (forall_mem_cons.2 ⟨hmerged, hlist⟩)
      refine ⟨hlt, hkeyed, hle, hperm.trans ?_⟩
      rw [flatMap_cons, flatMap_cons, flatMap_cons, ← append_assoc]
      exact hpoints.append_right _
    case isFalse hne =>
      obtain ⟨hlt, hkeyed, hle, hperm⟩ := ih hs' hnext hk'
      have hxy : x.key < y.key := lt_of_le_of_ne (hx y mem_cons_self) hne
      refine ⟨pairwise_cons.2 ⟨fun z hz => hxy.trans_le (hle z hz), hlt⟩,
        forall_mem_cons.2 ⟨hxk, hkeyed⟩,
        forall_mem_cons.2 ⟨le_rfl, fun z hz => (hxy.trans_le (hle z hz)).le⟩, ?_⟩
      exact hperm.append_left x.points

/-- One node for each value of the coordinate, in increasing order. -/
theorem sort_ok (dim : Nat) (ptList : List (Point ο)) :
    ∃ list, sort (keyList dim ptList) = some list ∧ list.Pairwise (fun y z => y.key < z.key) ∧
      Keyed dim list ∧ (list.flatMap KeyNode.points).Perm ptList := by
  have hkeyed : Keyed dim (keyList dim ptList) := by
    rw [keyList_eq]
    intro n hn
    obtain ⟨p, -, rfl⟩ := mem_map.1 (mem_reverse.1 hn)
    simp [KeyNode.points]
  have hnext : ∀ n ∈ keyList dim ptList, n.next = [] := by
    rw [keyList_eq]
    intro n hn
    obtain ⟨p, -, rfl⟩ := mem_map.1 (mem_reverse.1 hn)
    rfl
  have hpoints : ((keyList dim ptList).flatMap KeyNode.points).Perm ptList := by
    rw [keyList_eq]
    refine ((reverse_perm _).flatMap_right _).trans (Perm.of_eq ?_)
    simp [flatMap_map, KeyNode.points]
  match h : keyList dim ptList with
  | [] => exact ⟨[], rfl, Pairwise.nil, by simp [Keyed], h ▸ hpoints⟩
  | [x] => exact ⟨[x], rfl, pairwise_singleton _ x, h ▸ hkeyed, h ▸ hpoints⟩
  | x :: y :: list =>
    rw [h] at hkeyed hnext hpoints
    obtain ⟨l, hl, hperm, hsorted⟩ := Bubble.sort_ok (Nat.lt_succ_of_le
      (show Bubble.inversions KeyNode.key (x :: y :: list) ≤ _ from Bubble.inversions_le _))
    match l, hl, hperm, hsorted with
    | [], _, hperm, _ => exact absurd hperm.length_eq (by simp)
    | z :: l, hl, hperm, hsorted =>
      have hmem : ∀ n ∈ z :: l, n ∈ x :: y :: list := fun n hn => hperm.mem_iff.1 hn
      obtain ⟨hlt, hk, -, hp⟩ := collectEqual_ok hsorted
        (fun n hn => hnext n (hmem n (mem_cons_of_mem _ hn)))
        (show Keyed dim (z :: l) from fun n hn => hkeyed n (hmem n hn))
      have hsort : sort (x :: y :: list) = some (collectEqual z l) := by
        change (Bubble.sort KeyNode.key _ _).bind _ = _
        rw [hl]
        rfl
      exact ⟨collectEqual z l, hsort, hlt, hk, hp.trans ((hperm.flatMap_right _).trans hpoints)⟩

/-! ## The search tree -/

/-- The entries of a search tree for the coordinate `dim` of the given points:
the points of an entry have its key as their coordinate, and only the key
`NEGINFTY` has none. -/
structure Filed (dim : Nat) (ptList : List (Point ο)) (es : List (Key × List (Point ο))) :
    Prop where
  increasing : es.Pairwise fun e e' => e.1 < e'.1
  coordinate : ∀ e ∈ es, ∀ p ∈ e.2, p.coordinate dim = e.1
  points : (es.flatMap Prod.snd).Perm ptList
  empty : ∀ e ∈ es, e.2 = [] → 1 ≤ dim ∧ e.1 = negInfty

theorem entries_ok (dim : Nat) (ptList : List (Point ο))
    (hlow : 1 ≤ dim → ∀ p ∈ ptList, negInfty < p.coordinate dim) :
    ∃ es, entries dim ptList = some es ∧ Filed dim ptList es ∧ (1 ≤ dim → (negInfty, []) ∈ es) := by
  obtain ⟨list, hsort, hlt, hk, hperm⟩ := sort_ok dim ptList
  have hcoord : ∀ e ∈ list.map fun n => (n.key, n.points), ∀ p ∈ e.2, p.coordinate dim = e.1 := by
    intro e he
    obtain ⟨n, hn, rfl⟩ := mem_map.1 he
    exact hk n hn
  have hne : ∀ e ∈ list.map fun n => (n.key, n.points), e.2 ≠ [] := by
    intro e he
    obtain ⟨n, -, rfl⟩ := mem_map.1 he
    simp [KeyNode.points]
  have hpoints : ((list.map fun n => (n.key, n.points)).flatMap Prod.snd).Perm ptList := by
    rwa [flatMap_map]
  have hincr : (list.map fun n => (n.key, n.points)).Pairwise fun e e' => e.1 < e'.1 :=
    pairwise_map.2 hlt
  by_cases hdim : 1 ≤ dim
  · have hfirst : ∀ e ∈ list.map fun n => (n.key, n.points), negInfty < e.1 := fun e he => by
      obtain ⟨n, hn, rfl⟩ := mem_map.1 he
      have hp : n.point ∈ n.points := mem_cons_self
      rw [← hk n hn _ hp]
      exact hlow hdim _ (hperm.mem_iff.1 (mem_flatMap.2 ⟨n, hn, hp⟩))
    refine ⟨(negInfty, []) :: list.map fun n => (n.key, n.points), ?_, ⟨?_, ?_, ?_, ?_⟩, ?_⟩
    · simp [entries, hsort, hdim]
    · exact pairwise_cons.2 ⟨hfirst, hincr⟩
    · exact forall_mem_cons.2 ⟨by simp, hcoord⟩
    · simpa using hpoints
    · exact forall_mem_cons.2 ⟨fun _ => ⟨hdim, rfl⟩, fun e he h => absurd h (hne e he)⟩
    · exact fun _ => mem_cons_self
  · refine ⟨list.map fun n => (n.key, n.points), ?_, ⟨hincr, hcoord, hpoints, ?_⟩, ?_⟩
    · simp [entries, hsort, hdim]
    · exact fun e he h => absurd h (hne e he)
    · exact fun h => absurd h hdim

theorem Filed.exists_tree {es : List (Key × List (Point ο))} (h : Filed dim ptList es)
    (hne : es ≠ []) :
    ∃ t, makeTree es = some t ∧ t.toList = es ∧ t.Search ∧ t.Exact ∧ t.height ≤ 33 := by
  have hlen : es.length ≤ 2 ^ 32 := by
    have hnodup : (es.map Prod.fst).Nodup := pairwise_map.2 (h.increasing.imp ne_of_lt)
    rw [← length_map (f := Prod.fst), ← card_key]
    exact hnodup.length_le_card
  exact makeTree_ok hne h.increasing hlen (by decide)

theorem visit_ok {τ τ' κ α : Type} {f : τ → Option τ'} {g : τ → τ'} (hf : ∀ c, f c = some (g c))
    (sp : Nat) {t : LeafTree τ κ α} (h : sp + t.height ≤ 100) :
    visit f sp t = some (t.mapTag g) := by
  induction t generalizing sp with
  | leaf => simp [visit, hf, mapTag]
  | node c k l r ihl ihr =>
    have hpos : 0 < l.height := by cases l <;> simp [height]
    simp only [height] at h
    have hl := ihl sp (by omega)
    have hr := ihr (sp + 1) (by omega)
    simp [visit, hf, mapTag, hl, hr, show sp + 2 ≤ 100 by omega]

/-! ## The points below a node -/

section Fill

variable {κ α : Type} [LinearOrder κ]

/-- The tree in which each node has the list of points whose search goes through
it. -/
def fill (x : Point ο → κ) (ps : List (Point ο)) : LeafTree Unit κ α → LeafTree (List (Point ο)) κ α
  | leaf _ k o => leaf ps k o
  | node _ k l r =>
    node ps k (fill x (ps.filter (x · < k)) l) (fill x (ps.filter (k ≤ x ·)) r)

@[simp] theorem tag_fill (x : Point ο → κ) (ps : List (Point ο)) (t : LeafTree Unit κ α) :
    (fill x ps t).tag = ps := by cases t <;> rfl

@[simp] theorem height_fill (x : Point ο → κ) (ps : List (Point ο)) (t : LeafTree Unit κ α) :
    (fill x ps t).height = t.height := by
  induction t generalizing ps with
  | leaf => rfl
  | node c k l r ihl ihr => simp [fill, height, ihl, ihr]

theorem fill_nil (x : Point ο → κ) (t : LeafTree Unit κ α) :
    fill x [] t = t.mapTag fun _ => [] := by
  induction t with
  | leaf => rfl
  | node c k l r ihl ihr => simp [fill, mapTag, ihl, ihr]

end Fill

theorem attach_fill {α : Type} (p : Point ο) (ps : List (Point ο)) (t : LeafTree Unit Key α) :
    attach dim p (fill (·.coordinate dim) ps t) = fill (·.coordinate dim) (p :: ps) t := by
  induction t generalizing ps with
  | leaf => rfl
  | node c k l r ihl ihr =>
    by_cases h : p.coordinate dim < k
    · simp [fill, attach, h, ihl]
    · simp [fill, attach, h, ihr, not_lt.1 h]

theorem attachAll {α : Type} (ps qs : List (Point ο)) (t : LeafTree Unit Key α) :
    qs.foldl (fun t p => attach dim p t) (fill (·.coordinate dim) ps t) =
      fill (·.coordinate dim) (qs.reverse ++ ps) t := by
  induction qs generalizing ps with
  | nil => rfl
  | cons p qs ih => rw [foldl_cons, attach_fill, ih, reverse_cons, append_assoc]; rfl

end CLangProject.OrRTree

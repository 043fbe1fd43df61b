import CLangProject.TopDown

/-!
# Top-down insertion keeps a red-black tree

The tree is red-black at every step of the pass. `Descent` lists the places
where `current` can be: at the root, at `upper` itself, at a child of `upper`
or at a grandchild of it with a red node in between. In each of them `upper`
is black and does not have two red children, which is what a later split of
`current` needs.
-/

namespace CLangProject.TopDown

open LeafTree

variable {κ ο : Type}

/-- A node of which at least one child is black. -/
def BlackChild : LeafTree Color κ ο → Prop
  | leaf _ _ _ => True
  | node _ _ l r => l.tag = .black ∨ r.tag = .black

variable {c : Color} {t x y : LeafTree Color κ ο} {k' kc : κ}

theorem blackChild_join {d : Dir} {k : κ} {a b : LeafTree Color κ ο} :
    BlackChild (join d c k a b) ↔ a.tag = .black ∨ b.tag = .black := by
  cases d
  · exact Iff.rfl
  · exact or_comm

theorem blackChild_paint {n : Nat} (h : t.Bal n) (hc : t.tag = .red) : BlackChild (t.paint c) := by
  cases t with
  | leaf => trivial
  | node c' k l r => exact .inl (h.1 hc).1

variable [LinearOrder κ]

/-- The search for `k` has come to `t`, which is `current`; the first argument
is `upper == NULL`. -/
inductive Descent (k : κ) (es : List (κ × ο)) : Bool → Cursor κ ο → LeafTree Color κ ο → Prop where
  | root {t : LeafTree Color κ ο} : Held k es [] t → Descent k es true ⟨[], t, []⟩ t
  | settled {fs : Context Color κ ο} {t : LeafTree Color κ ο} : Held k es fs t → t.tag = .black →
      BlackChild t → Descent k es false ⟨fs, t, []⟩ t
  | child {fs : Context Color κ ο} {d : Dir} {ku : κ} {t s : LeafTree Color κ ο} :
      Held k es fs (join d .black ku t s) → toward k ku = d → (t.tag = .black ∨ s.tag = .black) →
      Descent k es false ⟨fs, join d .black ku t s, [d]⟩ t
  | grandchild {fs : Context Color κ ο} {d e : Dir} {ku km : κ} {t s' s : LeafTree Color κ ο} :
      Held k es fs (join d .black ku (join e .red km t s') s) → toward k ku = d →
      toward k km = e → s.tag = .black →
      Descent k es false ⟨fs, join d .black ku (join e .red km t s') s, [d, e]⟩ t

variable {k : κ} {es : List (κ × ο)} {atRoot : Bool} {s : Cursor κ ο}

theorem Descent.current (h : Descent k es atRoot s t) : s.current = some t := by
  cases h <;> simp [Cursor.current]

/-- The context of `current`. -/
theorem Descent.focus (h : Descent k es atRoot s t) :
    ∃ fs, LeafTree.focus s.here s.upper s.above = some (t, fs) ∧ Held k es fs t ∧
      plug fs t = s.tree := by
  cases h with
  | root h => exact ⟨[], rfl, h, rfl⟩
  | settled h => exact ⟨_, rfl, h, rfl⟩
  | child h hd => exact ⟨_, focus_join, h.down hd, rfl⟩
  | grandchild h hd he =>
    exact ⟨_, by rw [focus_join, focus_join]; rfl, (h.down hd).down he, rfl⟩

/-- The pass ends in a black leaf. -/
theorem Descent.leaf_black {o : ο} (h : Descent k es atRoot s (leaf c k' o)) : c = .black := by
  generalize ht : leaf c k' o = t at h
  cases h with
  | root h => exact (congrArg tag ht).trans h.redBlack.rootBlack
  | settled h hc => exact (congrArg tag ht).trans hc
  | child h hd hs =>
    subst ht
    refine Color.ne_red.1 ?_
    rintro rfl
    -- a red leaf has no black node, a black sibling has one
    obtain ⟨n, hn⟩ := h.bal
    obtain ⟨m, rfl, hl, hm⟩ := bal_black hn
    have := hm.pos_of_black (by simpa using hs)
    simp_all
  | grandchild h =>
    subst ht
    obtain ⟨n, hn⟩ := h.bal
    obtain ⟨m, rfl, hm, -⟩ := bal_black hn
    exact (bal_join_red.1 hm).1

/-! ## Splitting -/

section Split

variable {fs : Context Color κ ο} {d go : Dir} {ku km kc : κ} {x y s' s0 : LeafTree Color κ ο}

/-- `s` goes on at the child `x` of `current`, which the split makes black. -/
def SplitsTo (k : κ) (es : List (κ × ο)) (atRoot : Bool) (s : Cursor κ ο)
    (current : LeafTree Color κ ο) (go : Dir) (x : LeafTree Color κ ο) : Prop :=
  ∃ as p fs, split atRoot s current go = some (as, p) ∧
    s.repair as p = some ⟨fs, x.paint .black, []⟩ ∧ Held k es fs (x.paint .black)

theorem split_root (h : Held k es [] (join go .black kc x y)) (hg : toward k kc = go)
    (hx : x.tag = .red) (hy : y.tag = .red) :
    SplitsTo k es true ⟨[], join go .black kc x y, []⟩ (join go .black kc x y) go x := by
  have hed : (join go .black kc x y).edits [.paint [.left] .black, .paint [.right] .black] =
      some (join go .black kc (x.paint .black) (y.paint .black)) := by
    cases go <;> rfl
  obtain ⟨n, hn⟩ := h.bal
  obtain ⟨m, rfl, hxm, hym⟩ := bal_black hn
  have h' : Held k es [] (join go .black kc (x.paint .black) (y.paint .black)) :=
    h.edits_root hed (bal_join_black.2 ⟨hxm.paint_black hx, hym.paint_black hy⟩) tag_join
  exact ⟨_, _, _, rfl, Cursor.repair_one hed, h'.down hg⟩

theorem split_child (h : Held k es fs (join d .black ku (join go .black kc x y) s0))
    (hd : toward k ku = d) (hg : toward k kc = go) (hx : x.tag = .red) (hy : y.tag = .red) :
    SplitsTo k es false ⟨fs, join d .black ku (join go .black kc x y) s0, [d]⟩
      (join go .black kc x y) go x := by
  have hkey := toward_key h.search (search_join.1 h.search).2.2.1 fun _ => id
  have hed : (join d .black ku (join go .black kc x y) s0).edits (splitChild d) =
      some (join d .black ku (join go .red kc (x.paint .black) (y.paint .black)) s0) := by
    cases d <;> cases go <;> rfl
  refine ⟨splitChild d, [d, go], _, by simp_all [split], ?_, ((h.edits hed ?_ ?_).down hd).down hg⟩
  · exact Cursor.repair_two hed
  · intro n hn
    obtain ⟨m, rfl, hcur, hs⟩ := bal_black hn
    obtain ⟨j, rfl, hxj, hyj⟩ := bal_black hcur
    simp [hxj.paint_black hx, hyj.paint_black hy, hs]
  · simp

theorem split_outer
    (h : Held k es fs (join d .black ku (join d .red km (join go .black kc x y) s') s0))
    (hm : toward k km = d) (hg : toward k kc = go) (hs0 : s0.tag = .black)
    (hx : x.tag = .red) (hy : y.tag = .red) :
    SplitsTo k es false ⟨fs, join d .black ku (join d .red km (join go .black kc x y) s') s0,
      [d, d]⟩ (join go .black kc x y) go x := by
  have hsearch := (search_join.1 h.search).2.2.1
  have hkey := toward_key h.search (search_join.1 hsearch).2.2.1
    fun p hp => mem_toList_join.2 (.inl hp)
  have hed : (join d .black ku (join d .red km (join go .black kc x y) s') s0).edits
      (splitOuter d) = some (join d .black km (join go .red kc (x.paint .black) (y.paint .black))
        (join d .red ku s' s0)) := by
    cases d <;> cases go <;> rfl
  refine ⟨splitOuter d, [d, go], _, by simp_all [split], ?_, ((h.edits hed ?_ ?_).down hm).down hg⟩
  · exact Cursor.repair_two hed
  · intro n hn
    obtain ⟨m, rfl, hmid, hs⟩ := bal_black hn
    obtain ⟨-, hs'c, hcur, hs'⟩ := bal_join_red.1 hmid
    obtain ⟨j, rfl, hxj, hyj⟩ := bal_black hcur
    simp [hxj.paint_black hx, hyj.paint_black hy, hs, hs', hs'c, hs0]
  · simp

theorem split_inner
    (h : Held k es fs (join d .black ku (join d.flip .red km (join go .black kc x y) s') s0))
    (hd : toward k ku = d) (hm : toward k km = d.flip) (hg : toward k kc = go)
    (hs0 : s0.tag = .black) (hx : x.tag = .red) (hy : y.tag = .red) :
    SplitsTo k es false
      ⟨fs, join d .black ku (join d.flip .red km (join go .black kc x y) s') s0, [d, d.flip]⟩
      (join go .black kc x y) go x := by
  have hsearch := (search_join.1 h.search).2.2.1
  have hkey := toward_key h.search (search_join.1 hsearch).2.2.1
    fun p hp => mem_toList_join.2 (.inl hp)
  have hsplit : split false
      ⟨fs, join d .black ku (join d.flip .red km (join go .black kc x y) s') s0, [d, d.flip]⟩
      (join go .black kc x y) go = some (splitInner d, [go, go.flip]) := by
    simp_all [split]
  have hbal : ∀ n, (join d .black ku (join d.flip .red km (join go .black kc x y) s') s0).Bal n →
      ∃ j, n = j + 2 ∧ x.Bal j ∧ y.Bal j ∧ s'.Bal (j + 1) ∧ s'.tag = .black ∧ s0.Bal (j + 1) := by
    intro n hn
    obtain ⟨m, rfl, hmid, hs⟩ := bal_black hn
    obtain ⟨-, hs'c, hcur, hs'⟩ := bal_join_red.1 hmid
    obtain ⟨j, rfl, hxj, hyj⟩ := bal_black hcur
    exact ⟨j, rfl, hxj, hyj, hs', hs'c, hs⟩
  rcases d.eq_or_eq_flip go with rfl | rfl
  · have hed : (join go .black ku (join go.flip .red km (join go .black kc x y) s') s0).edits
        (splitInner go) = some (join go .black kc (join go.flip .red km (x.paint .black) s')
          (join go .red ku (y.paint .black) s0)) := by
      cases go <;> rfl
    refine ⟨_, _, _, hsplit, ?_, ((h.edits hed ?_ ?_).down hg).down hm⟩
    · exact Cursor.repair_two hed
    · intro n hn
      obtain ⟨j, rfl, hxj, hyj, hs', hs'c, hs⟩ := hbal n hn
      simp [hxj.paint_black hx, hyj.paint_black hy, hs, hs', hs'c, hs0]
    · simp
  · have hed : (join d .black ku (join d.flip .red km (join d.flip .black kc x y) s') s0).edits
        (splitInner d) = some (join d.flip .black kc (join d .red ku (x.paint .black) s0)
          (join d.flip .red km (y.paint .black) s')) := by
      cases d <;> rfl
    refine ⟨_, _, _, hsplit, ?_, ((h.edits hed ?_ ?_).down hg).down hd⟩
    · rw [Dir.flip_flip]
      exact Cursor.repair_two hed
    · intro n hn
      obtain ⟨j, rfl, hxj, hyj, hs', hs'c, hs⟩ := hbal n hn
      simp [hxj.paint_black hx, hyj.paint_black hy, hs, hs', hs'c, hs0]
    · simp

end Split

/-! ## The loop -/

theorem Descent.splitsTo (h : Descent k es atRoot s (join (toward k kc) .black kc x y))
    (hx : x.tag = .red) (hy : y.tag = .red) :
    SplitsTo k es atRoot s (join (toward k kc) .black kc x y) (toward k kc) x := by
  generalize ht : join (toward k kc) .black kc x y = t at h
  cases h with
  | root h =>
    subst ht
    exact split_root h rfl hx hy
  | settled h hc hb =>
    subst ht
    simp [blackChild_join, hx, hy] at hb
  | child h hd hs =>
    subst ht
    exact split_child h hd rfl hx hy
  | @grandchild fs d e ku km t s' s0 h hd he hs =>
    subst ht
    rcases d.eq_or_eq_flip e with rfl | rfl
    · exact split_outer h he rfl hs hx hy
    · exact split_inner h hd he rfl hs hx hy

/-- `current` can only be red as a child of `upper`, next to a black one. -/
theorem Descent.down_red (h : Descent k es atRoot s (join (toward k kc) .red kc x y)) :
    Descent k es atRoot (s.down (toward k kc)) x := by
  generalize ht : join (toward k kc) .red kc x y = t at h
  cases h with
  | root h =>
    subst ht
    exact absurd h.redBlack.rootBlack (by simp [plug])
  | settled h hc =>
    subst ht
    simp at hc
  | child h hd hs =>
    subst ht
    exact .grandchild h hd rfl (by simpa using hs)
  | grandchild h =>
    subst ht
    obtain ⟨n, hn⟩ := h.bal
    obtain ⟨m, rfl, hm, -⟩ := bal_black hn
    simp at hm

/-- From a node, one iteration leads to a place further down. -/
theorem Descent.step {l r : LeafTree Color κ ο} (h : Descent k es atRoot s (node c kc l r))
    (fuel : Nat) :
    ∃ atRoot' s' t, insertLoop k (fuel + 1) atRoot s = insertLoop k fuel atRoot' s' ∧
      Descent k es atRoot' s' t ∧ t.height < (node c kc l r).height := by
  have hcur := h.current
  obtain ⟨x, y, hxy⟩ := node_eq_join (toward k kc) c kc l r
  have hheight : x.height < (node c kc l r).height := by
    rw [hxy, height_join]
    omega
  have hblack : l.tag = .black ∨ r.tag = .black ↔ x.tag = .black ∨ y.tag = .black :=
    or_child (p := (tag · = .black)) hxy
  cases c with
  | red =>
    refine ⟨atRoot, s.down (toward k kc), x, ?_, Descent.down_red (hxy ▸ h), hheight⟩
    simp [insertLoop, hcur]
  | black =>
    by_cases hb : l.tag = .black ∨ r.tag = .black
    · obtain ⟨fs, hf, hh, -⟩ := h.focus
      refine ⟨false, _, x, ?_, .child (hxy ▸ hh) rfl (hblack.1 hb), hheight⟩
      rw [← hxy]
      simp [insertLoop, hcur, hb, Cursor.moveTo, hf, Cursor.down]
    · have hxy' := not_or.1 (mt hblack.2 hb)
      have hx := Color.ne_black.1 hxy'.1
      obtain ⟨as, p, fs, hsplit, hrep, hh⟩ :=
        Descent.splitsTo (hxy ▸ h) hx (Color.ne_black.1 hxy'.2)
      obtain ⟨_, _, hcurHeld, _⟩ := h.focus
      obtain ⟨n, hn⟩ := hcurHeld.bal
      obtain ⟨m, -, hxm, -⟩ := bal_black (hxy ▸ hn)
      refine ⟨false, _, x.paint .black, ?_, .settled hh tag_paint (blackChild_paint hxm hx),
        by rwa [height_paint]⟩
      rw [← hxy] at hsplit
      simp [insertLoop, hcur, hb, hsplit, hrep]

/-- The pass reaches the place of `k`, a black leaf. -/
theorem insertLoop_ok {fuel : Nat} (h : Descent k es atRoot s t) (hf : t.height ≤ fuel) :
    ∃ s' k' o fs, insertLoop k fuel atRoot s = some s' ∧
      LeafTree.focus s'.here s'.upper s'.above = some (leaf .black k' o, fs) ∧
      Held k es fs (leaf .black k' o) ∧ plug fs (leaf .black k' o) = s'.tree := by
  induction fuel generalizing atRoot s t with
  | zero => cases t <;> simp [height] at hf
  | succ fuel ih =>
    cases t with
    | leaf c k' o =>
      obtain rfl := h.leaf_black
      obtain ⟨fs, hfocus, hh, hplug⟩ := h.focus
      exact ⟨s, k', o, fs, by simp [insertLoop, h.current], hfocus, hh, hplug⟩
    | node c kc l r =>
      obtain ⟨atRoot', s', t, heq, h', hlt⟩ := h.step fuel
      rw [heq]
      exact ih h' (by omega)

/-! ## Insertion -/

/-- The leaf with the key `k'` becomes a node with two red leaves. -/
theorem newNode_ok {k : κ} (o o' : ο) (hk : k' ≠ k)
    (ht : t = if k' < k then node .black k (leaf .red k' o') (leaf .red k o) else node .black k'
      (leaf .red k o) (leaf .red k' o')) :
    t.Search ∧ (∀ p, p ∈ t.toList ↔ p ∈ (leaf Color.black k' o').toList ∨ p = (k, o)) ∧
      t.Bal 1 ∧ t.tag = .black := by
  refine ⟨.of_split hk ht, fun p => ?_, ?_⟩
  · rw [mem_of_split ht, toList, List.mem_singleton]
  · subst ht
    by_cases hlt : k' < k <;> simp [hlt, Bal]

/-- `insert` always returns. A key that is stored already is refused and
nothing is changed; otherwise the entry is added. -/
theorem insert_spec (t : Root Color κ ο) (h : t.RedBlack) (k : κ) (o : ο) :
    ∃ t' r, insert t k o = some (t', r) ∧ t'.RedBlack ∧ Inserted t.entries k o t'.entries r := by
  cases t with
  | none =>
    refine ⟨_, _, rfl, redBlack_iff.2 ⟨trivial, rfl, 1, rfl⟩, ?_, ?_⟩
    · simp [Root.entries]
    · simp [Root.entries, toList]
  | some t =>
    obtain ⟨s, k', o', fs, hloop, hfocus, hh, hplug⟩ := insertLoop_ok (.root (h.held k)) le_rfl
    by_cases hk : k' = k
    · subst hk
      have hstored : (k', o') ∈ t.toList := hh.placed.mem_iff.2 (by simp [toList])
      refine ⟨some s.tree, -1, by simp [insert, hloop, hfocus], ?_, fun _ => ⟨rfl, ?_⟩,
        fun hn => absurd hstored (hn o')⟩
      · exact hplug ▸ hh.redBlack
      · exact hplug ▸ hh.entries
    · have hnot : ∀ x, (k, x) ∉ t.toList := fun x hx => by
        have := hh.placed.mem_iff.1 hx
        simp [toList, Ne.symm hk] at this
      obtain ⟨hsearch, hmem, hbal, hcol⟩ := newNode_ok o o' hk rfl
      obtain ⟨hrb, hentries⟩ := hh.insert hsearch hmem (fun n hn => by rwa [bal_leaf.1 hn])
        (by simp [hcol])
      exact ⟨some _, 0, by simp [insert, hloop, hfocus, hk], hrb,
        fun hex => hex.elim fun x hx => absurd hx (hnot x), fun _ => ⟨rfl, hentries⟩⟩

end CLangProject.TopDown

import CLangProject.TopDown

/-!
# Top-down deletion from a red-black tree

The pass keeps the tree red-black and `upper` a black node with a red child;
`Pass` lists where `current` can be meanwhile, together with the number of
iterations that are left. When the pass arrives at a black node with black
children, `borrow` makes that node red and gives it a black parent with a red
child (`BorrowsTo`), so that a red node is always at hand above the leaf that
is to be removed (`AtLeaf`).

The start of `delete` looks for a leaf on the right with the wrong pointer.
It fails exactly on the trees described by `Crashes`; on all others the whole
of `delete` does its work (`delete_spec`).
-/

namespace CLangProject.TopDown

open LeafTree

variable {κ ο : Type}

/-- A black node with black children. -/
def AllBlack (t : LeafTree Color κ ο) : Prop :=
  ∃ k l r, t = node .black k l r ∧ l.tag = .black ∧ r.tag = .black

variable {t a : LeafTree Color κ ο} {kc k' : κ} {c : Color}

/-- Such a node can be made red. -/
theorem AllBlack.bal {n : Nat} (h : AllBlack t) (hn : t.Bal n) :
    ∃ m, n = m + 1 ∧ 1 ≤ m ∧ (t.paint .red).Bal m := by
  obtain ⟨k, l, r, rfl, hl, hr⟩ := h
  obtain ⟨-, m, rfl, hlm, hrm⟩ := hn
  exact ⟨m, rfl, hlm.pos_of_black hl, fun _ => ⟨hl, hr⟩, m, rfl, hlm, hrm⟩

variable [LinearOrder κ]

variable {k : κ} {es : List (κ × ο)} {fs : Context Color κ ο} {d e : Dir} {ku km : κ}

variable {s : Cursor κ ο} {n : Nat} {o : ο} {l r b : LeafTree Color κ ο}
  {x y s' s0 : LeafTree Color κ ο}

/-! ## Borrowing -/

/-- The repair makes `current` red and puts it below a black `upper` at which
the search goes on. -/
def BorrowsTo (k : κ) (es : List (κ × ο)) (s : Cursor κ ο) (current : LeafTree Color κ ο) : Prop :=
  ∃ as p fs d ku other, borrow s current = some (as, p) ∧
    s.repair as p = some ⟨fs, join d .black ku (current.paint .red) other, []⟩ ∧
    Held k es fs (join d .black ku (current.paint .red) other) ∧ toward k ku = d

theorem borrow_child (h : Held k es fs (join d .black ku x s0)) (hd : toward k ku = d)
    (hx : AllBlack x) (hs0 : s0.tag = .red) :
    BorrowsTo k es ⟨fs, join d .black ku x s0, [d]⟩ x := by
  have hkey := toward_key h.search (search_join.1 h.search).2.2.1 fun _ => id
  -- the shape of the sibling follows from its black count
  obtain ⟨n, hn⟩ := h.bal
  obtain ⟨m, rfl, hxm, hsm⟩ := bal_black hn
  obtain ⟨m, rfl, hm, hxr⟩ := hx.bal hxm
  obtain ⟨ks, a, b, rfl, ha, hb, ham, hbm⟩ := hsm.red_join hs0 (by omega) d
  obtain ⟨ka, p, q, rfl, hp, hq⟩ := ham.black_join ha hm d
  cases hpc : p.tag with
  | black =>
    cases hqc : q.tag with
    | black =>
      have hed : (join d .black ku x (join d .red ks (join d .black ka p q) b)).edits
          (childEven d) = some (join d .black ks
            (join d .black ku (x.paint .red) (join d .red ka p q)) b) := by
        simp [childEven]
      have h' := h.edits_of_bal hed hn (by simp [*]) (by simp)
      exact ⟨childEven d, [d], _, d, ku, _, by simp_all [borrow, tagAt], Cursor.repair_one hed,
        h'.down (toward_top h'.search hd), hd⟩
    | red =>
      have hed : (join d .black ku x (join d .red ks (join d .black ka p q) b)).edits
          (childFar d) = some (join d .black ka (join d .black ku (x.paint .red) p)
            (join d .red ks (q.paint .black) b)) := by
        simp [childFar]
      have h' := h.edits_of_bal hed hn (by simp [*, hq.paint_black hqc]) (by simp)
      exact ⟨childFar d, [d], _, d, ku, _, by simp_all [borrow, tagAt], Cursor.repair_one hed,
        h'.down (toward_top h'.search hd), hd⟩
  | red =>
    obtain ⟨kp, x1, y1, rfl, hxc, hyc, hx1, hy1⟩ := hp.red_join hpc hm d
    have hed : (join d .black ku x (join d .red ks
        (join d .black ka (join d .red kp x1 y1) q) b)).edits (childNear d) =
          some (join d .black kp (join d .black ku (x.paint .red) x1)
            (join d .red ks (join d .black ka y1 q) b)) := by
      simp [childNear]
    have h' := h.edits_of_bal hed hn (by simp [*]) (by simp)
    exact ⟨childNear d, [d], _, d, ku, _, by simp_all [borrow, tagAt], Cursor.repair_one hed,
      h'.down (toward_top h'.search hd), hd⟩

theorem borrow_grandchild (h : Held k es fs (join d .black ku (join e .red km y s') s0))
    (hd : toward k ku = d) (he : toward k km = e) (hy : AllBlack y) :
    BorrowsTo k es ⟨fs, join d .black ku (join e .red km y s') s0, [d, e]⟩ y := by
  have hsearch := (search_join.1 h.search).2.2.1
  have hkey := toward_key h.search (search_join.1 hsearch).2.2.1
    fun p hp => mem_toList_join.2 (.inl hp)
  have hde : (if e = d then d else d.flip) = e := by
    rcases d.eq_or_eq_flip e with rfl | rfl <;> simp
  obtain ⟨n, hn⟩ := h.bal
  obtain ⟨m, rfl, hmid, hs⟩ := bal_black hn
  obtain ⟨hyc, hs'c, hym, hs'm⟩ := bal_join_red.1 hmid
  obtain ⟨m, rfl, hm, hyr⟩ := hy.bal hym
  obtain ⟨ks, p, q, rfl, hp, hq⟩ := hs'm.black_join hs'c hm e
  cases hqc : q.tag with
  | black =>
    cases hpc : p.tag with
    | black =>
      have hed : (join d .black ku (join e .red km y (join e .black ks p q)) s0).edits
          (grandchildEven d) = some (join d .black ku
            (join e .black km (y.paint .red) (join e .red ks p q)) s0) := by
        cases d <;> cases e <;> rfl
      have h' := h.edits_of_bal hed hn (by simp [*]) (by simp)
      exact ⟨grandchildEven d, [d], _, e, km, _, by simp_all [borrow, tagAt], Cursor.repair_one hed,
        h'.down hd, he⟩
    | red =>
      obtain ⟨kp, x1, y1, rfl, hxc, hy1c, hx1, hy1⟩ := hp.red_join hpc hm e
      have hed : (join d .black ku (join e .red km y
          (join e .black ks (join e .red kp x1 y1) q)) s0).edits (grandchildNear d e) =
            some (join d .black ku (join e .red kp (join e .black km (y.paint .red) x1)
              (join e .black ks y1 q)) s0) := by
        cases d <;> cases e <;> rfl
      have h' := h.edits_of_bal hed hn (by simp [*]) (by simp)
      have hdown := h'.down hd
      exact ⟨grandchildNear d e, [d, e], _, e, km, _, by simp_all [borrow, tagAt],
        Cursor.repair_two hed, hdown.down (toward_top hdown.search he), he⟩
  | red =>
    have hed : (join d .black ku (join e .red km y (join e .black ks p q)) s0).edits
        (grandchildFar d e) = some (join d .black ku (join e .red ks
          (join e .black km (y.paint .red) p) (q.paint .black)) s0) := by
      cases d <;> cases e <;> rfl
    have h' := h.edits_of_bal hed hn (by simp [*, hq.paint_black hqc]) (by simp)
    have hdown := h'.down hd
    exact ⟨grandchildFar d e, [d, e], _, e, km, _, by simp_all [borrow, tagAt],
      Cursor.repair_two hed, hdown.down (toward_top hdown.search he), he⟩

/-! ## The loop -/

/-- `current` is the leaf at which the search for `k` ends, with the key `k'`
and the object `o`: a child of `upper` next to a red one, or a grandchild with
a red node in between. -/
inductive AtLeaf (k : κ) (es : List (κ × ο)) (k' : κ) (o : ο) : Cursor κ ο → Prop where
  | child {fs : Context Color κ ο} {d : Dir} {ku : κ} {c : Color} {s0 : LeafTree Color κ ο} :
      Held k es fs (join d .black ku (leaf c k' o) s0) → toward k ku = d → s0.tag = .red →
      AtLeaf k es k' o ⟨fs, join d .black ku (leaf c k' o) s0, [d]⟩
  | grandchild {fs : Context Color κ ο} {d e : Dir} {ku km : κ} {c : Color}
      {s' s0 : LeafTree Color κ ο} :
      Held k es fs (join d .black ku (join e .red km (leaf c k' o) s') s0) → toward k ku = d →
      toward k km = e →
      AtLeaf k es k' o ⟨fs, join d .black ku (join e .red km (leaf c k' o) s') s0, [d, e]⟩

/-- The places of `current` in the loop, with a bound on the number of
iterations that are left. A red node on the way costs one iteration less
than a black one, which may have to be made red first. -/
inductive Pass (k : κ) (es : List (κ × ο)) : Cursor κ ο → Nat → Prop where
  | settled {fs : Context Color κ ο} {d : Dir} {ku : κ} {x s0 : LeafTree Color κ ο} :
      Held k es fs (join d .black ku x s0) → toward k ku = d → (x.tag = .red ∨ s0.tag = .red) →
      Pass k es ⟨fs, join d .black ku x s0, []⟩ (2 * x.height + x.tag.weight)
  | red {fs : Context Color κ ο} {d e : Dir} {ku km : κ} {y s' s0 : LeafTree Color κ ο} :
      Held k es fs (join d .black ku (join e .red km y s') s0) → toward k ku = d → toward k km = e →
      Pass k es ⟨fs, join d .black ku (join e .red km y s') s0, [d]⟩ (2 * y.height + 1)
  | leaf {s : Cursor κ ο} {k' : κ} {o : ο} : AtLeaf k es k' o s → Pass k es s 1

theorem BorrowsTo.pass (h : BorrowsTo k es s t) :
    ∃ as p s', borrow s t = some (as, p) ∧ s.repair as p = some s' ∧
      Pass k es s' (2 * t.height) := by
  obtain ⟨as, p, fs, d, ku, other, hb, hr, hh, hd⟩ := h
  exact ⟨as, p, _, hb, hr, by simpa using Pass.settled hh hd (.inl tag_paint)⟩

/-- A black node with a red child can be the new `upper`. -/
theorem Held.pass (hh : Held k es fs (node .black kc l r)) (hr : l.tag = .red ∨ r.tag = .red) :
    ∃ n, Pass k es ⟨fs, node .black kc l r, []⟩ n ∧ n ≤ 2 * (node .black kc l r).height := by
  obtain ⟨a, b, hab⟩ := node_eq_join (toward k kc) .black kc l r
  refine ⟨2 * a.height + a.tag.weight, ?_, ?_⟩
  · rw [hab] at hh ⊢
    exact .settled hh rfl ((or_child (p := (tag · = .red)) hab).1 hr)
  · rw [hab, height_join]
    cases a.tag <;> simp only [Color.weight_red, Color.weight_black] <;> omega

/-- A black node that the search has come to becomes `upper`, if need be after
a repair. -/
theorem visit_black (hf : focus s.here s.upper s.above = some (node .black kc l r, fs))
    (hcur : s.current = some (node .black kc l r)) (hh : Held k es fs (node .black kc l r))
    (hb : AllBlack (node .black kc l r) → BorrowsTo k es s (node .black kc l r)) :
    ∃ s' n, visit s = some s' ∧ Pass k es s' n ∧ n ≤ 2 * (node .black kc l r).height := by
  by_cases hr : l.tag = .red ∨ r.tag = .red
  · obtain ⟨n, hp, hle⟩ := Held.pass hh hr
    exact ⟨_, n, by simp [visit, hcur, hr, Cursor.moveTo, hf], hp, hle⟩
  · obtain ⟨hl, hr'⟩ := not_or.1 hr
    obtain ⟨as, p, s', hbor, hrep, hp⟩ :=
      (hb ⟨kc, l, r, rfl, Color.ne_red.1 hl, Color.ne_red.1 hr'⟩).pass
    exact ⟨s', _, by simp [visit, hcur, hr, hbor, hrep], hp, le_rfl⟩

theorem deleteLoop_down (hcur : s.current = some (join d c ku a b)) (hd : toward k ku = d)
    (fuel : Nat) : deleteLoop k (fuel + 1) s = (visit (s.down d)).bind (deleteLoop k fuel) := by
  obtain ⟨l, r, hlr⟩ := join_eq_node d c ku a b
  rw [hlr] at hcur
  simp [deleteLoop, hcur, hd]

/-- The step down from `upper` to a child. -/
theorem visit_child (h : Held k es fs (join d .black ku x s0)) (hd : toward k ku = d)
    (hred : x.tag = .red ∨ s0.tag = .red) :
    ∃ s' n, visit ⟨fs, join d .black ku x s0, [d]⟩ = some s' ∧ Pass k es s' n ∧
      n < 2 * x.height + x.tag.weight := by
  obtain ⟨n, hn⟩ := h.bal
  obtain ⟨m, rfl, hxm, hsm⟩ := bal_black hn
  have hcur : Cursor.current ⟨fs, join d .black ku x s0, [d]⟩ = some x := by simp [Cursor.current]
  cases x with
  | leaf c k' o =>
    -- next to a red leaf the black counts leave only another red node
    have hs0 : s0.tag = .red := by
      rcases hred with hc | hc
      · obtain rfl : c = .red := hc
        refine Color.ne_black.1 fun hb => ?_
        have := hsm.pos_of_black hb
        simp [bal_leaf.1 hxm] at this
      · exact hc
    exact ⟨_, 1, by simp [visit, hcur], .leaf (.child h hd hs0), by simp [LeafTree.height]; omega⟩
  | node c km l r =>
    cases c with
    | red =>
      obtain ⟨y, s', hy⟩ := node_eq_join (toward k km) .red km l r
      refine ⟨⟨fs, join d .black ku (node .red km l r) s0, [d]⟩, 2 * y.height + 1,
        by simp [visit, hcur], ?_, ?_⟩
      · rw [hy] at h ⊢
        exact .red h hd rfl
      · rw [hy, height_join]
        simp
        omega
    | black =>
      have hs0 : s0.tag = .red := by simpa using hred
      obtain ⟨s', n, hv, hp, hle⟩ := visit_black (by simp [focus_join, focus]) hcur (h.down hd)
        fun hb => borrow_child h hd hb hs0
      exact ⟨s', n, hv, hp, by simp; omega⟩

/-- The step down from a red child of `upper` to a grandchild. -/
theorem visit_grandchild (h : Held k es fs (join d .black ku (join e .red km y s') s0))
    (hd : toward k ku = d) (he : toward k km = e) :
    ∃ t n, visit ⟨fs, join d .black ku (join e .red km y s') s0, [d, e]⟩ = some t ∧
      Pass k es t n ∧ n < 2 * y.height + 1 := by
  obtain ⟨n, hn⟩ := h.bal
  obtain ⟨m, rfl, hmid, -⟩ := bal_black hn
  obtain ⟨hyc, -, -, -⟩ := bal_join_red.1 hmid
  have hcur : Cursor.current ⟨fs, join d .black ku (join e .red km y s') s0, [d, e]⟩ = some y := by
    simp [Cursor.current]
  cases y with
  | leaf c k' o =>
    exact ⟨_, 1, by simp [visit, hcur], .leaf (.grandchild h hd he), by simp [LeafTree.height]⟩
  | node c kc l r =>
    obtain rfl : c = .black := hyc
    obtain ⟨t, n, hv, hp, hle⟩ := visit_black (by simp [focus_join, focus]) hcur
      ((h.down hd).down he) fun hb => borrow_grandchild h hd he hb
    exact ⟨t, n, hv, hp, by omega⟩

/-- One iteration of the loop: `current` is the leaf, or the pass goes on with
fewer iterations left. -/
theorem Pass.step (h : Pass k es s n) (fuel : Nat) :
    (∃ k' o, AtLeaf k es k' o s) ∨ ∃ s' n', deleteLoop k (fuel + 1) s = deleteLoop k fuel s' ∧
      Pass k es s' n' ∧ n' < n := by
  cases h with
  | leaf h => exact .inl ⟨_, _, h⟩
  | settled h hd hred =>
    obtain ⟨s', n', hv, hp, hlt⟩ := visit_child h hd hred
    refine .inr ⟨s', n', ?_, hp, hlt⟩
    rw [deleteLoop_down rfl hd]
    simp [Cursor.down, hv]
  | @red fs d e ku km y s' s0 h hd he =>
    obtain ⟨t, n', hv, hp, hlt⟩ := visit_grandchild h hd he
    refine .inr ⟨t, n', ?_, hp, hlt⟩
    have hcur : Cursor.current ⟨fs, join d .black ku (join e .red km y s') s0, [d]⟩ =
        some (join e .red km y s') := by
      simp [Cursor.current]
    rw [deleteLoop_down hcur he]
    simp [Cursor.down, hv]

theorem AtLeaf.current (h : AtLeaf k es k' o s) : ∃ c, s.current = some (leaf c k' o) := by
  cases h with
  | @child _ _ _ c | @grandchild _ _ _ _ _ c => exact ⟨c, by simp [Cursor.current]⟩

/-- The tree at the end of the loop, and what it has for the key `k`. -/
theorem AtLeaf.tree (h : AtLeaf k es k' o s) :
    s.tree.RedBlack ∧ (∀ p, p ∈ s.tree.toList ↔ p ∈ es) ∧ ∀ x, (k, x) ∈ es ↔ k = k' ∧ x = o := by
  cases h with
  | child h hd _ =>
    exact ⟨h.redBlack, h.entries, fun x => by rw [(h.down hd).placed.mem_iff]; simp [toList]⟩
  | grandchild h hd he =>
    exact ⟨h.redBlack, h.entries,
      fun x => by rw [((h.down hd).down he).placed.mem_iff]; simp [toList]⟩

theorem Pass.pos (h : Pass k es s n) : 0 < n := by
  cases h with
  | @settled _ _ _ x =>
    cases x <;> simp [LeafTree.height]
  | red => omega
  | leaf => omega

/-- The loop arrives at the leaf. -/
theorem deleteLoop_ok {fuel : Nat} (h : Pass k es s n) (hn : n ≤ fuel) :
    ∃ s' k' o, deleteLoop k fuel s = some s' ∧ AtLeaf k es k' o s' := by
  induction fuel generalizing s n with
  | zero =>
    have := h.pos
    omega
  | succ fuel ih =>
    rcases h.step fuel with ⟨k', o, hleaf⟩ | ⟨s', n', heq, hp, hlt⟩
    · obtain ⟨c, hc⟩ := hleaf.current
      exact ⟨s, k', o, by simp [deleteLoop, hc], hleaf⟩
    · rw [heq]
      exact ih hp (by omega)

/-! ## The start -/

/-- The repair at the root leads to a place from which the pass can go on. -/
def Prepares (k : κ) (es : List (κ × ο)) (d : Dir) (upper : LeafTree Color κ ο) : Prop :=
  ∃ as p s n, prepare d upper = some (as, p) ∧ Cursor.repair ⟨[], upper, []⟩ as p = some s ∧
    Pass k es s n ∧ n ≤ 2 * upper.height

theorem prepare_leaf {kl : κ} (h : Held k es [] (join .left .black ku (leaf .black kl o) x))
    (hd : toward k ku = .left) (hx : x.tag = .black) :
    Prepares k es .left (join .left .black ku (leaf .black kl o) x) := by
  obtain ⟨n, hn⟩ := h.bal
  obtain ⟨m, rfl, hlm, hxm⟩ := bal_black hn
  obtain rfl : m = 1 := bal_leaf.1 hlm
  cases x with
  | leaf c kx ox =>
    have hed : (join .left .black ku (leaf .black kl o) (leaf c kx ox)).edits redChildren =
        some (join .left .black ku (leaf .red kl o) (leaf .red kx ox)) := rfl
    have h' := h.edits_root hed (bal_join_black (n := 0).2 ⟨rfl, rfl⟩) tag_join
    exact ⟨redChildren, [], _, _, rfl, by simp [Cursor.repair, hed, Cursor.moveTo, focus],
      .settled h' hd (.inl rfl), by simp [LeafTree.height]⟩
  | node c kx a b =>
    obtain rfl : c = .black := hx
    obtain ⟨ham, hbm⟩ := bal_join_black (d := .left) (n := 0).1 hxm
    have hred : ∀ {t : LeafTree Color κ ο}, t.Bal 0 → t.tag = .red := fun ht =>
      Color.ne_black.1 fun hb => absurd (ht.pos_of_black hb) (by decide)
    have hed : (join .left .black ku (leaf .black kl o) (node .black kx a b)).edits
        (redFar .left) = some (join .left .black ku (leaf .black kl o)
          (join .left .red kx (a.paint .black) (b.paint .black))) := rfl
    have h' := h.edits_of_bal hed hn
      (by simp [ham.paint_black (hred ham), hbm.paint_black (hred hbm)]) (by simp)
    exact ⟨redFar .left, [], _, _, rfl, by simp [Cursor.repair, hed, Cursor.moveTo, focus],
      .settled h' hd (.inr tag_join), by simp [LeafTree.height]; omega⟩

theorem prepare_node {ka : κ} {a1 a2 : LeafTree Color κ ο}
    (h : Held k es [] (join d .black ku (join d .black ka a1 a2) b)) (hd : toward k ku = d)
    (hb : b.tag = .black) : Prepares k es d (join d .black ku (join d .black ka a1 a2) b) := by
  have hnear : nearIsLeaf d (join d .black ka a1 a2) = false := by cases d <;> rfl
  by_cases hred : a1.tag = .red ∨ a2.tag = .red
  · obtain ⟨l, r, hlr⟩ := join_eq_node d .black ka a1 a2
    obtain ⟨n, hp, hle⟩ :=
      Held.pass (hlr ▸ h.down hd) ((or_child (p := (tag · = .red)) hlr.symm).2 hred)
    refine ⟨[], [d], _, n, ?_, Cursor.repair_one rfl, hlr ▸ hp, ?_⟩
    · simp [prepare, hnear, tagAt, hred]
    · rw [height_join, hlr]
      omega
  · obtain ⟨ha1, ha2⟩ := not_or.1 hred
    have hall : AllBlack (join d .black ka a1 a2) := by
      obtain ⟨l, r, hlr⟩ := join_eq_node d .black ka a1 a2
      obtain ⟨hl, hr⟩ := not_or.1 (mt (or_child (p := (tag · = .red)) hlr.symm).1 hred)
      exact ⟨ka, l, r, hlr, Color.ne_red.1 hl, Color.ne_red.1 hr⟩
    obtain ⟨n, hn⟩ := h.bal
    obtain ⟨m, rfl, ham, hbm⟩ := bal_black hn
    obtain ⟨m, rfl, hm, har⟩ := hall.bal ham
    obtain ⟨kb, p, q, rfl, hp, hq⟩ := hbm.black_join hb hm d
    rw [paint_join] at har
    have hle : 2 * (join d .red ka a1 a2).height + Color.red.weight ≤
        2 * (join d .black ku (join d .black ka a1 a2) (join d .black kb p q)).height := by
      simp
      omega
    cases hqc : q.tag with
    | red =>
      have hed : (join d .black ku (join d .black ka a1 a2) (join d .black kb p q)).edits
          (pullOuter d) = some (join d .black kb (join d .black ku (join d .red ka a1 a2) p)
            (q.paint .black)) := by
        cases d <;> rfl
      have h' := h.edits_of_bal hed hn (by simp_all [hq.paint_black hqc]) (by simp)
      exact ⟨pullOuter d, [d], _, _, by simp [prepare, hnear, tagAt, hred, hqc],
        Cursor.repair_one hed, .settled (h'.down (toward_top h'.search hd)) hd (.inl tag_join),
        by simpa using hle⟩
    | black =>
      cases hpc : p.tag with
      | red =>
        obtain ⟨kp, p1, p2, rfl, hp1, hp2, hp1m, hp2m⟩ := hp.red_join hpc hm d
        have hed : (join d .black ku (join d .black ka a1 a2)
            (join d .black kb (join d .red kp p1 p2) q)).edits (pullInner d) =
              some (join d .black kp (join d .black ku (join d .red ka a1 a2) p1)
                (join d .black kb p2 q)) := by
          cases d <;> rfl
        have h' := h.edits_of_bal hed hn (by simp_all) (by simp)
        exact ⟨pullInner d, [d], _, _, by simp [prepare, hnear, tagAt, hred, hqc],
          Cursor.repair_one hed,
          .settled (h'.down (toward_top h'.search hd)) hd (.inl tag_join), by simpa using hle⟩
      | black =>
        have hed : (join d .black ku (join d .black ka a1 a2) (join d .black kb p q)).edits
            redChildren = some (join d .black ku (join d .red ka a1 a2) (join d .red kb p q)) := by
          cases d <;> rfl
        have h' := h.edits_root hed (bal_join_black.2 ⟨har, by simp [*]⟩) tag_join
        exact ⟨redChildren, [], _, _, by simp [prepare, hnear, tagAt, hred, hqc, hpc],
          by simp [Cursor.repair, hed, Cursor.moveTo, focus],
          .settled h' hd (.inl tag_join), by simpa using hle⟩

/-- The trees and keys on which `delete` follows a NULL pointer: the root has
black children, the key is searched in the right one, and that is a leaf. -/
def Crashes : Root Color κ ο → κ → Prop
  | some (node _ k' l (leaf c _ _)), k => l.tag = .black ∧ c = .black ∧ k' ≤ k
  | _, _ => False

instance decidableCrashes : (t : Root Color κ ο) → (k : κ) → Decidable (Crashes t k)
  | none, _ => inferInstanceAs (Decidable False)
  | some (leaf _ _ _), _ => inferInstanceAs (Decidable False)
  | some (node _ _ _ (node _ _ _ _)), _ => inferInstanceAs (Decidable False)
  | some (node _ k' l (leaf c _ _)), k =>
    inferInstanceAs (Decidable (l.tag = .black ∧ c = .black ∧ k' ≤ k))

theorem start_join (hd : toward k ku = d) :
    start k (join d .black ku a b) = if a.tag = .black ∧ b.tag = .black then
        (prepare d (join d .black ku a b)).bind fun (es, p) =>
          Cursor.repair ⟨[], join d .black ku a b, []⟩ es p
      else some ⟨[], join d .black ku a b, []⟩ := by
  have hl : tagAt [.left] (join d .black ku a b) =
      some (if d = .left then a.tag else b.tag) := by cases d <;> rfl
  have hr : tagAt [.right] (join d .black ku a b) =
      some (if d = .left then b.tag else a.tag) := by cases d <;> rfl
  cases d <;> simp [start, hl, hr, hd, and_comm]

theorem start_ok (h : (node c ku l r).RedBlack) (hc : ¬ Crashes (some (node c ku l r)) k) :
    ∃ s n, start k (node c ku l r) = some s ∧ Pass k (node c ku l r).toList s n ∧
      n ≤ 2 * (node c ku l r).height := by
  obtain rfl : c = .black := h.rootBlack
  have hh := h.held k
  by_cases hred : l.tag = .red ∨ r.tag = .red
  · obtain ⟨n, hp, hle⟩ := Held.pass hh hred
    obtain ⟨a, b, hab⟩ := node_eq_join (toward k ku) .black ku l r
    refine ⟨_, n, ?_, hp, hle⟩
    rw [hab, start_join rfl, if_neg]
    have := (or_child (p := (tag · = .red)) hab).1 hred
    rintro ⟨ha, hb⟩
    simp [ha, hb] at this
  · obtain ⟨hl, hr⟩ := not_or.1 hred
    rw [← ne_eq, Color.ne_red] at hl hr
    obtain ⟨d, hd⟩ : ∃ d, toward k ku = d := ⟨_, rfl⟩
    obtain ⟨a, b, hab⟩ := node_eq_join d .black ku l r
    have hboth : a.tag = .black ∧ b.tag = .black := by
      cases d <;> cases hab
      · exact ⟨hl, hr⟩
      · exact ⟨hr, hl⟩
    have hprep : Prepares k (node .black ku l r).toList d (join d .black ku a b) := by
      rcases leaf_or_join d a with ⟨c, kl, o, rfl⟩ | ⟨c, ka, a1, a2, rfl⟩
      · obtain rfl : c = .black := hboth.1
        cases d with
        | left => exact prepare_leaf (hab ▸ hh) hd hboth.2
        | right =>
          cases hab
          exact absurd ⟨hl, rfl, toward_eq_iff.1 hd⟩ hc
      · obtain rfl : c = .black := by simpa using hboth.1
        exact prepare_node (hab ▸ hh) hd hboth.2
    obtain ⟨as, p, s, n, hpre, hrep, hp, hle⟩ := hprep
    refine ⟨s, n, ?_, hp, hab ▸ hle⟩
    rw [hab, start_join hd, if_pos hboth, hpre]
    exact hrep

/-! ## The end -/

theorem unlink_ok (h : AtLeaf k es k o s) : ∃ u, unlink k s = some u ∧ (plug s.above u).RedBlack ∧
      ∀ p, p ∈ (plug s.above u).toList ↔ p ∈ es ∧ p.1 ≠ k := by
  cases h with
  | @child fs d ku c s0 h hd hs0 =>
    have hdown := h.down hd
    refine ⟨s0.paint .black, by simp [unlink, hd],
      h.erase (search_paint.2 hdown.placed.search_other)
      (fun p => ?_) (fun n hn => ?_) (by simp)⟩
    · rw [toList_paint]
      exact hdown.placed.mem_other p
    · obtain ⟨m, rfl, -, hm⟩ := bal_black hn
      exact hm.paint_black hs0
  | @grandchild fs d e ku km c s' s0 h hd he =>
    have hdown := (h.down hd).down he
    have hbal : ∀ n, (join e .red km (leaf c k o) s').Bal n → s'.tag = .black ∧ s'.Bal n :=
      fun n hn => ⟨(bal_join_red.1 hn).2.1, (bal_join_red.1 hn).2.2.2⟩
    obtain ⟨n, hn⟩ := (h.down hd).bal
    have hu : unlink k ⟨fs, join d .black ku (join e .red km (leaf c k o) s') s0, [d, e]⟩ =
        some (join d .black ku s' s0) := by
      rcases d.eq_or_eq_flip e with rfl | rfl <;> simp [unlink, hd, join_flip]
    refine ⟨_, hu, (h.down hd).erase hdown.placed.search_other hdown.placed.mem_other (fun n hn =>
      (hbal n hn).2)
      fun hr => ?_⟩
    rw [(hbal n hn).1] at hr
    cases hr

/-- Outside of `Crashes`, `delete` keeps the tree red-black, takes out the
entry with the key if there is one, and returns its object. -/
theorem delete_spec (t : Root Color κ ο) (h : t.RedBlack) (k : κ) (hc : ¬ Crashes t k) :
    ∃ t' r, delete t k = some (t', r) ∧ t'.RedBlack ∧ Deleted t.entries k t'.entries r := by
  match t, h, hc with
  | none, h, _ => exact ⟨none, none, rfl, trivial, by simp [Root.entries], by simp [Root.entries]⟩
  | some (leaf c k' o), h, _ =>
    by_cases hk : k' = k
    · subst hk
      refine ⟨none, some o, by simp [delete], trivial, ?_, ?_⟩
      · simp [Root.entries, toList, eq_comm]
      · simp [Root.entries, toList]
    · refine ⟨_, none, by simp [delete, hk], h, ?_, ?_⟩
      · simp [Root.entries, toList, Ne.symm hk]
      · simp [Root.entries, toList, hk]
  | some (node c ku l r), h, hc =>
    obtain ⟨s, n, hstart, hpass, hn⟩ := start_ok h hc
    obtain ⟨s', k', o, hloop, hleaf⟩ := deleteLoop_ok hpass hn
    obtain ⟨c', hcur⟩ := hleaf.current
    obtain ⟨hrb, hent, hmem⟩ := hleaf.tree
    by_cases hk : k' = k
    · subst hk
      obtain ⟨u, hu, hrb', hent'⟩ := unlink_ok hleaf
      refine ⟨some (plug s'.above u), some o, by simp [delete, hstart, hloop, hcur, hu], hrb',
        fun x => ?_, hent'⟩
      simp [Root.entries, hmem, eq_comm]
    · refine ⟨some s'.tree, none, by simp [delete, hstart, hloop, hcur, hk], hrb, fun x => ?_,
        fun p => ?_⟩
      · simp [Root.entries, hmem, Ne.symm hk]
      · refine (hent p).trans ⟨fun hp => ⟨hp, ?_⟩, And.left⟩
        rintro rfl
        exact hk ((hmem p.2).1 hp).1.symm

end CLangProject.TopDown

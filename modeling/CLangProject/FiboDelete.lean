import CLangProject.FiboForest

/-!
# `delete_min`

The function takes the minimum off the leftmost path, puts the path below it on
top of the rest and then cleans up: it takes all blocks off the path, adds two
of the same rank until no two have the same, and builds a new path from what is
left. No step loses a node: each one takes a forest to a forest with the same
nodes.

That the ranks stay below the length of `rank_class` follows from the number of
nodes of a block, `2 ^ rank`.
-/

namespace CLangProject.FiboHeap

open Forest List Option Function

variable {ο : Type} {m : Mem ο} {hp : Nat}

/-! ## Taking the minimum out -/

variable {l : List Nat} {a mn b i : Nat} {r : Bin} {gs fs : Forest} {f : Nat × Bin}
  {rankClass : Classes}

theorem pathEnd_ok {e : Nat} (h : Path m.left (some a) (l ++ [e]) none) {steps : Nat}
    (hs : l.length < steps) : pathEnd m steps a = some e := by
  induction steps generalizing l a with
  | zero => omega
  | succ steps ih =>
    cases l with
    | nil =>
      obtain ⟨rfl, ⟨hnone, -⟩ | ⟨_, _, h⟩⟩ := h.cons_cases
      · rw [pathEnd, show (m.node a).left = none from hnone]
      · cases h
    | cons b l =>
      obtain ⟨rfl, ⟨-, hnil⟩ | ⟨c, hc, h⟩⟩ := h.cons_cases
      · simp at hnil
      · rw [pathEnd, show (m.node a).left = some c from hc]
        exact ih h (by simpa using hs)

theorem moveChildren_ok (hr : Lies m (m.node mn).right r) (hgs : Spread m (m.node hp).right gs)
    (hne : gs ≠ []) (hnodup : (hp :: (cells r.roots ++ cells gs)).Nodup)
    (hnext : ∀ a ∈ cells r.roots, a < m.next) :
    ∃ m', moveChildren m hp mn = some m' ∧ Spread m' (m'.node hp).right (r.roots ++ gs) ∧
      Within (hp :: (cells r.roots ++ cells gs)) m m' := by
  obtain ⟨hhp, hcells⟩ := nodup_cons.1 hnodup
  obtain ⟨hrn, hgn, hdisj⟩ := nodup_append.1 hcells
  cases r with
  | nil =>
    have hnone : (m.node mn).right = none := hr
    exact ⟨m, by rw [moveChildren, hnone], hgs, .refl _ m⟩
  | node a l r =>
    have htop : (m.node mn).right = some a := hr.1
    have hspread := hr.spread
    obtain ⟨rs, ⟨e, re⟩, hroots⟩ := (eq_nil_or_concat' (Bin.node a l r).roots).resolve_left
      (cons_ne_nil _ _)
    obtain ⟨g, gs, rfl⟩ := exists_cons_of_ne_nil hne
    rw [hroots, htop] at hspread
    rw [hroots] at hhp hcells hnext hrn ⊢
    have hg : (m.node hp).right = some g.1 := hgs.path.1
    rw [hg] at hgs
    have hend : pathEnd m (m.next + 1) a = some e := by
      have hpath := hspread.path
      rw [tops_append] at hpath
      have hlen := length_le_of_nodup hrn hnext
      have htops := (tops_sublist (rs ++ [(e, re)])).length_le
      rw [tops_append, length_append] at htops
      exact pathEnd_ok hpath (by omega)
    have ha : a ∈ cells (rs ++ [(e, re)]) := by
      rw [← hroots]
      exact mem_cons_self
    refine ⟨(((m.setLeft e (some g.1)).setUp g.1 (some e)).setRight hp (some a)).setUp a (some hp),
      ?_, ?_, ?_⟩
    · simp [moveChildren, htop, hend, hg]
    · rw [Mem.read_setUp.2.1, Mem.right_setRight_self]
      refine (((Spread.join hspread.path hspread.block hgs ?_).setUp g.1 (some e)).modify ?_
        _).setUp a (some hp)
      · rwa [cells_append]
      · rwa [cells_append]
    · exact ((((Within.refl _ m).modify (a := e) (by simp) rfl).modify (by simp) rfl).modify
        mem_cons_self rfl).modify (mem_cons_of_mem _ (mem_append_left _ ha)) rfl

theorem unlinkMin_ok {pre post : Forest} (h : Heap m hp (pre ++ (mn, r) :: post)) :
    ∃ m' last r' gs, unlinkMin m hp mn = some (m', last) ∧
      (last = true → gs = [] ∧ r' = .nil) ∧ (last = false → gs ≠ []) ∧
      Lies m' (m'.node mn).right r' ∧ Spread m' (m'.node hp).right gs ∧
      (r'.roots ++ gs).Perm (r.roots ++ (pre ++ post)) ∧
      Within (hp :: cells (pre ++ (mn, r) :: post)) m m' := by
  obtain ⟨hhp, hcells⟩ := nodup_cons.1 h.nodup
  have hne : mn ≠ hp := by
    rintro rfl
    exact hhp (by simp)
  have hr : Lies m (m.node mn).right r := (h.spread.block (mn, r) (by simp)).lies
  rcases eq_nil_or_concat' pre with rfl | ⟨pre, x, rfl⟩
  · -- The minimum is on top of the leftmost path.
    simp only [nil_append, cells_cons, mem_cons, mem_append, not_or, nodup_cons] at hhp hcells ⊢
    have htop : (m.node hp).right = some mn := h.spread.path.1
    have hpost : Path m.left (m.node mn).left (tops post) none := h.spread.path.2
    cases post with
    | cons g gs =>
      have hleft : (m.node mn).left = some g.1 := hpost.1
      have hgs : Spread m (some g.1) (g :: gs) :=
        ⟨hleft ▸ hpost, fun f hf => h.spread.block f (mem_cons_of_mem _ hf)⟩
      refine ⟨(m.setRight hp (some g.1)).setUp g.1 (some hp), false, r, g :: gs, ?_, by simp,
        by simp, ?_, ?_, .rfl, ?_⟩
      · simp [unlinkMin, htop, hleft]
      · rw [Mem.read_setUp.2.1, Mem.node_setRight_ne hne]
        exact (hr.modify hhp.2.1 _).setUp _ _
      · rw [Mem.read_setUp.2.1, Mem.right_setRight_self]
        exact (hgs.modify hhp.2.2 _).setUp _ _
      · exact ((Within.refl _ m).modify (a := hp) (by simp) rfl).modify (by simp) rfl
    | nil =>
      have hleft : (m.node mn).left = none := hpost
      cases r with
      | nil =>
        have hright : (m.node mn).right = none := hr
        refine ⟨m.setRight hp none, true, .nil, [], ?_, by simp, by simp, ?_, ?_, .rfl,
          (Within.refl _ m).modify (by simp) rfl⟩
        · simp [unlinkMin, htop, hleft, hright]
        · rwa [Mem.node_setRight_ne hne]
        · rw [Mem.right_setRight_self]
          exact ⟨rfl, fun _ hf => absurd hf not_mem_nil⟩
      | node a l r =>
        have hright : (m.node mn).right = some a := hr.1
        have hgs := hr.spread
        rw [hright] at hgs
        refine ⟨((m.setRight hp (some a)).setUp a (some hp)).setRight mn none, false, .nil,
          (Bin.node a l r).roots, ?_, by simp, by simp [Bin.roots], ?_, ?_, by simp [Bin.roots], ?_⟩
        · simp [unlinkMin, htop, hleft, hright]
        · exact Mem.right_setRight_self
        · rw [Mem.node_setRight_ne hne.symm, Mem.read_setUp.2.1, Mem.right_setRight_self]
          rw [← cells_roots] at hhp hcells
          exact ((hgs.modify hhp.2.1 _).setUp _ _).modify hcells.1.1 _
        · exact (((Within.refl _ m).modify (a := hp) (by simp) rfl).modify
            (by simp [Bin.cells]) rfl).modify
            (by simp) rfl
  · -- There is a node above the minimum, and `up` leads to it.
    have hups := h.ups
    have hpath := h.spread.path
    rw [tops_append, tops_cons] at hpath hups
    obtain ⟨q, hpre, hq, hpost⟩ := path_append.1 hpath
    have hpost : Path m.left (m.node mn).left (tops post) none := hpost
    have hup : (m.node mn).up = some x.1 := by
      rw [tops_append, tops_cons, tops_nil, append_assoc] at hups
      exact (isChain_append_cons_cons.1 hups).2.1
    have hnot : (m.node hp).right ≠ some mn := by
      intro heq
      have hmem : mn ∈ tops (pre ++ [x]) := hpre.mem_of_ne_nil (by simp) heq
      rw [cells_append, cells_cons] at hcells
      exact (nodup_append.1 hcells).2.2 mn (mem_cells_of_mem_tops hmem) mn
        mem_cons_self rfl
    have hgs : Spread m (m.node mn).left post :=
      ⟨hpost, fun f hf => h.spread.block f (by simp [hf])⟩
    have hrest : (cells (pre ++ [x] ++ post)).Nodup :=
      hcells.sublist (cells_sublist (Sublist.append_left (sublist_cons_self ..) _))
    have hjoin : Spread (m.setLeft x.1 (m.node mn).left) (m.node hp).right (pre ++ [x] ++ post) :=
      .join hpre (fun f hf => h.spread.block f (mem_append_left _ hf)) hgs hrest
    have hxmn : mn ≠ x.1 := by
      rintro rfl
      simp [nodup_append] at hcells
    have hx : x.1 ∉ r.cells := top_not_below (g := (mn, r)) hcells (by simp) (by simp)
    have hlies : Lies (m.setLeft x.1 (m.node mn).left) (m.node mn).right r := hr.modify hx _
    have hmem : x.1 ∈ hp :: cells (pre ++ [x] ++ (mn, r) :: post) := by simp
    cases hleft : (m.node mn).left with
    | none =>
      rw [hleft] at hjoin hlies
      exact ⟨m.setLeft x.1 none, false, r, pre ++ [x] ++ post,
        by simp [unlinkMin, hnot, hup, hleft, hxmn], by simp, by simp, by simpa using hlies,
        by simpa using hjoin, .rfl, (Within.refl _ m).modify hmem rfl⟩
    | some l =>
      rw [hleft] at hjoin hlies
      have hl : l ∈ hp :: cells (pre ++ [x] ++ (mn, r) :: post) := by
        have hpost' := mem_cells_of_mem_tops ((hpost.head_mem hleft).resolve_right (by simp))
        simp [hpost']
      refine ⟨(m.setLeft x.1 (some l)).setUp l (m.node mn).up, false, r, pre ++ [x] ++ post, ?_,
        by simp, by simp, ?_, ?_, .rfl, ((Within.refl _ m).modify hmem rfl).modify hl rfl⟩
      · simp [unlinkMin, hnot, hup, hleft, hxmn]
      · simpa using hlies.setUp l _
      · simpa using hjoin.setUp l _

/-! ## Adding blocks -/

theorem node_addBlock_ne {c : Nat} (ha : c ≠ a) (hb : c ≠ b) :
    (addBlock m a b).node c = m.node c := by
  rw [addBlock, Mem.node_setRank_ne ha, Mem.node_setRight_ne ha, Mem.node_setLeft_ne hb]

theorem within_addBlock {S : List Nat} (ha : a ∈ S) (hb : b ∈ S) : Within S m (addBlock m a b) := by
  rw [addBlock]
  exact (((Within.refl _ m).modify hb rfl).modify ha rfl).modify ha rfl

/-- The block of `a` with the one of `b` put below it. -/
def below (f g : Nat × Bin) : Nat × Bin := (f.1, .node g.1 f.2 g.2)

theorem cells_below (f g : Nat × Bin) (fs : Forest) :
    (cells (below f g :: fs)).Perm (cells (f :: g :: fs)) := by
  simp only [below, cells_cons, Bin.cells, cons_append]
  refine .cons _ (.trans (.cons _ ?_) perm_middle.symm)
  rw [← append_assoc]
  exact perm_append_comm.append_right _

theorem addBlock_ok {g : Nat × Bin} (hf : Block m f) (hg : Block m g)
    (hrank : (m.node f.1).rank = (m.node g.1).rank) (hkey : (m.node f.1).key ≤ (m.node g.1).key)
    (hnodup : (cells [f, g]).Nodup) : Block (addBlock m f.1 g.1) (below f g) := by
  simp only [cells_cons, cells_nil, append_nil, nodup_cons, mem_append, mem_cons, not_or] at hnodup
  obtain ⟨⟨hff, hfg, hfg'⟩, hnodup⟩ := hnodup
  obtain ⟨-, hgn, hdisj⟩ := nodup_append.1 hnodup
  have hgf : g.1 ∉ f.2.cells := fun hmem => hdisj _ hmem _ mem_cons_self rfl
  have hgg : g.1 ∉ g.2.cells := (nodup_cons.1 hgn).1
  have hsame : ∀ c, c ≠ f.1 → c ≠ g.1 → (addBlock m f.1 g.1).node c = m.node c :=
    fun c => node_addBlock_ne
  have hlies : ∀ {p t}, Lies m p t → f.1 ∉ t.cells → g.1 ∉ t.cells →
      Lies (addBlock m f.1 g.1) p t := fun h hf hg =>
    h.congr fun c hc => .of_eq (hsame c (fun heq => hf (heq ▸ hc)) fun heq => hg (heq ▸ hc))
  have hkeys : ∀ c, ((addBlock m f.1 g.1).node c).key = (m.node c).key := fun c => by
    simp [addBlock]
  obtain ⟨n, hn, hsize⟩ := hf.rank
  obtain ⟨n', hn', hsize'⟩ := hg.rank
  obtain rfl : n = n' := by
    rw [hn, hn'] at hrank
    exact_mod_cast hrank
  have hleft : ((addBlock m f.1 g.1).node g.1).left = (m.node f.1).right := by simp [addBlock]
  have hright : ((addBlock m f.1 g.1).node g.1).right = (m.node g.1).right := by
    simp [addBlock, Ne.symm hfg]
  have hgrank : ((addBlock m f.1 g.1).node g.1).rank = (m.node g.1).rank := by
    simp [addBlock, Ne.symm hfg]
  refine ⟨⟨by simp [below, addBlock], ?_, ?_, ?_, n, by rw [hgrank, hn'], hsize'⟩, ?_,
    n + 1, by simp [below, addBlock, hn], ?_⟩
  · rw [hleft]
    exact hlies hf.lies hff hgf
  · rw [hright]
    exact hlies hg.lies hfg' hgg
  · intro b hb
    rw [hkeys, hkeys]
    exact hg.least b hb
  · intro b hb
    rw [hkeys, hkeys]
    simp only [below, Bin.cells, mem_cons, mem_append] at hb ⊢
    rcases hb with rfl | hb | hb
    · exact hkey
    · exact Int.le_trans hkey (hg.least b hb)
    · exact hf.least b hb
  · simp only [below, Bin.cells, length_cons, length_append]
    omega

/-! ## The blocks in `rank_class` -/

/-- The blocks by their ranks. -/
abbrev Slots := Nat → Option (Nat × Bin)

def held (K : Slots) : Forest := (List.range 100).filterMap K

variable {K : Slots}

theorem held_put (hi : i < 100) (hK : K i = none) (f : Nat × Bin) :
    (held (update K i (some f))).Perm (f :: held K) := by
  obtain ⟨l1, l2, hl⟩ := append_of_mem (mem_range.2 hi)
  have hnodup : (List.range 100).Nodup := nodup_range
  rw [hl] at hnodup
  have hsame : ∀ j ∈ l1 ++ l2, update K i (some f) j = K j := fun j hj =>
    update_of_ne (by
      rintro rfl
      exact (nodup_cons.1 (nodup_middle.1 hnodup)).1 hj) _ _
  rw [held, held, hl, filterMap_append, filterMap_append, filterMap_cons,
    filterMap_cons, update_self, hK, filterMap_congr fun j hj => hsame j (mem_append_left _ hj),
    filterMap_congr fun j hj => hsame j (mem_append_right _ hj)]
  exact perm_middle

theorem held_take (hi : i < 100) (hK : K i = some f) :
    (held K).Perm (f :: held (update K i none)) := by
  have h := held_put hi (update_self i none K) f
  rwa [update_idem, ← hK, update_eq_self] at h

theorem held_empty : held (fun _ => none) = [] := by simp [held]

theorem mem_held : f ∈ held K ↔ ∃ i < 100, K i = some f := by
  simp [held]

/-- While the leftmost path is unbuilt: the block at hand, the blocks `gs` that
are still on the path, and those in `rank_class`. -/
structure Stage (m : Mem ο) (hp : Nat) (cur : Option (Nat × Bin)) (gs : Forest)
    (rankClass : Classes) (K : Slots) : Prop where
  block : ∀ f ∈ cur, Block m f
  spread : Spread m (m.node hp).right gs
  class_eq : ∀ i < 100, rankClass i = (K i).map Prod.fst
  slot : ∀ i < 100, ∀ f, K i = some f → Block m f ∧ (m.node f.1).rank = i
  nodup : (hp :: cells (cur.toList ++ (gs ++ held K))).Nodup

namespace Stage

variable {f : Nat × Bin} {gs : Forest} {rankClass : Classes} {K : Slots} {n : Nat}

/-- The block at hand goes to its class. -/
theorem store (h : Stage m hp (some f) gs rankClass K) (hn : n < 100) (hK : K n = none)
    (hrank : (m.node f.1).rank = n) :
    Stage m hp none gs (update rankClass n (some f.1)) (update K n (some f)) where
  block := by simp
  spread := h.spread
  class_eq i hi := by
    by_cases hin : i = n
    · simp [hin]
    · simpa [hin] using h.class_eq i hi
  slot i hi g hg := by
    by_cases hin : i = n
    · subst hin
      rw [update_self] at hg
      obtain rfl := some.inj hg
      exact ⟨h.block f rfl, hrank⟩
    · rw [update_of_ne hin] at hg
      exact h.slot i hi g hg
  nodup := by
    have hperm := ((held_put hn hK f).append_left gs).trans perm_middle
    exact ((cells_perm hperm).cons hp).nodup_iff.2 h.nodup

/-- The next block is taken off the path. -/
theorem take (h : Stage m hp none (f :: gs) rankClass K) :
    Stage (m.setRight hp (m.node f.1).left) hp (some f) gs rankClass K := by
  have hhp : hp ∉ cells (f :: (gs ++ held K)) := (nodup_cons.1 h.nodup).1
  have hblock : ∀ g ∈ f :: (gs ++ held K), Block m g →
      Block (m.setRight hp (m.node f.1).left) g := fun g hg hb =>
    hb.modify (fun hmem => hhp (mem_cells hg hmem)) _
  refine ⟨?_, ?_, h.class_eq, ?_, h.nodup⟩
  · intro g hg
    obtain rfl := some.inj hg
    exact hblock f mem_cons_self (h.spread.block f mem_cons_self)
  · rw [Mem.right_setRight_self]
    refine Spread.modify ⟨h.spread.path.2, fun g hg =>
      h.spread.block g (mem_cons_of_mem _ hg)⟩ (fun hmem => hhp ?_) _
    simp [hmem]
  · intro i hi g hg
    obtain ⟨hb, hrank⟩ := h.slot i hi g hg
    have hmem : g ∈ f :: (gs ++ held K) := by simp [mem_held.2 ⟨i, hi, hg⟩]
    exact ⟨hblock g hmem hb, by simpa using hrank⟩

/-- The block at hand and the one in its class are added. -/
theorem add {g u v : Nat × Bin} (h : Stage m hp (some f) gs rankClass K) (hn : n < 100)
    (hK : K n = some g) (hrank : (m.node f.1).rank = n) (huv : [u, v].Perm [f, g])
    (hkey : (m.node u.1).key ≤ (m.node v.1).key) :
    Stage (addBlock m u.1 v.1) hp (some (below u v)) gs (update rankClass n none)
      (update K n none) := by
  set rest := gs ++ held (update K n none)
  have hperm : (f :: (gs ++ held K)).Perm (u :: v :: rest) :=
    (((held_take hn hK).append_left gs).trans perm_middle).cons f |>.trans
      (huv.symm.append_right rest)
  have hnodup : (hp :: cells (u :: v :: rest)).Nodup :=
    ((cells_perm hperm).cons hp).nodup_iff.1 h.nodup
  obtain ⟨hhp, hcells⟩ := nodup_cons.1 hnodup
  have hboth : ∀ w ∈ [u, v], Block m w ∧ (m.node w.1).rank = n := by
    intro w hw
    rcases mem_pair.1 (huv.mem_iff.1 hw) with rfl | rfl
    · exact ⟨h.block w rfl, hrank⟩
    · exact h.slot n hn w hK
  obtain ⟨hu, hurank⟩ := hboth u (by simp)
  obtain ⟨hv, hvrank⟩ := hboth v (by simp)
  have hsplit : cells (u :: v :: rest) = cells [u, v] ++ cells rest := cells_append [u, v] rest
  rw [hsplit] at hcells
  obtain ⟨huv', -, hdisj⟩ := nodup_append.1 hcells
  have hsame : ∀ c ∈ hp :: cells rest, (addBlock m u.1 v.1).node c = m.node c := by
    intro c hc
    have hne : ∀ w ∈ [u, v], c ≠ w.1 := by
      rintro w hw rfl
      rcases mem_cons.1 hc with heq | hc
      · exact hhp (hsplit ▸ mem_append_left _ (heq ▸ mem_cells hw mem_cons_self))
      · exact hdisj _ (mem_cells hw mem_cons_self) _ hc rfl
    exact node_addBlock_ne (hne u (by simp)) (hne v (by simp))
  refine ⟨?_, ?_, ?_, ?_, ?_⟩
  · intro w hw
    obtain rfl := some.inj hw
    exact addBlock_ok hu hv (hurank.trans hvrank.symm) hkey huv'
  · rw [hsame hp mem_cons_self]
    refine h.spread.frame fun c hc => hsame c (mem_cons_of_mem _ ?_)
    exact cells_append gs _ ▸ mem_append_left _ hc
  · intro i hi
    by_cases hin : i = n
    · simp [hin]
    · simpa [hin] using h.class_eq i hi
  · intro i hi w hw
    have hin : i ≠ n := by
      rintro rfl
      rw [update_self] at hw
      cases hw
    have hmem : w ∈ rest := mem_append_right _ (mem_held.2 ⟨i, hi, hw⟩)
    rw [update_of_ne hin] at hw
    obtain ⟨hb, hwrank⟩ := h.slot i hi w hw
    have hw' : ∀ c ∈ w.1 :: w.2.cells, (addBlock m u.1 v.1).node c = m.node c := fun c hc =>
      hsame c (mem_cons_of_mem _ (mem_cells hmem hc))
    exact ⟨hb.frame hw', by rw [hw' w.1 mem_cons_self, hwrank]⟩
  · exact ((cells_below u v rest).cons hp).nodup_iff.2 hnodup

end Stage

/-- Taking the path apart ends with all nodes in `rank_class`. -/
theorem unbuild_ok (steps : Nat) (h : Stage m hp (some f) gs rankClass K)
    (hfew : (cells (f :: (gs ++ held K))).length < 2 ^ 100)
    (hsteps : 3 * gs.length + 2 + (held K).length ≤ steps) :
    ∃ m' rankClass' K', unbuild hp steps (some f.1) m rankClass = some (m', rankClass') ∧
      Stage m' hp none [] rankClass' K' ∧ (cells (held K')).Perm (cells (f :: (gs ++ held K))) ∧
      Within (hp :: cells (f :: (gs ++ held K))) m m' := by
  induction steps generalizing m f gs rankClass K with
  | zero => omega
  | succ steps ih =>
    obtain ⟨n, hrank, hsize⟩ := (h.block f rfl).rank
    have hn : n < 100 := by
      simp only [cells_cons, length_cons, length_append] at hfew
      exact (Nat.pow_lt_pow_iff_right (by decide)).1 (show 2 ^ n < 2 ^ 100 by omega)
    have hbound : 0 ≤ (m.node f.1).rank ∧ (m.node f.1).rank < 100 := by omega
    have htoNat : (m.node f.1).rank.toNat = n := by omega
    have hclass := h.class_eq n hn
    cases hK : K n with
    | none =>
      rw [hK, map_none] at hclass
      have hstore := h.store hn hK hrank
      have hperm : (gs ++ held (update K n (some f))).Perm (f :: (gs ++ held K)) :=
        ((held_put hn hK f).append_left gs).trans perm_middle
      have hlen := (held_put hn hK f).length_eq
      rw [length_cons] at hlen
      cases gs with
      | nil =>
        have hright : (m.node hp).right = none := h.spread.path
        refine ⟨m, _, _, ?_, hstore, cells_perm hperm, .refl _ m⟩
        rw [unbuild, if_pos hbound]
        simp only [htoNat, hclass, hright]
        cases steps <;> rfl
      | cons g gs =>
        have hright : (m.node hp).right = some g.1 := h.spread.path.1
        have hcells := cells_perm hperm
        rw [length_cons] at hsteps
        obtain ⟨m', rankClass', K', hrun, hstage, hperm', hwithin⟩ :=
          ih hstore.take (by rw [← cons_append, hcells.length_eq]; exact hfew) (by omega)
        refine ⟨m', rankClass', K', ?_, hstage, hperm'.trans hcells, ?_⟩
        · rw [unbuild, if_pos hbound]
          simp only [htoNat, hclass, hright]
          exact hrun
        · exact ((Within.refl _ m).modify mem_cons_self rfl).trans
            (hwithin.mono fun a ha => (hcells.cons hp).mem_iff.1 ha)
    | some g =>
      rw [hK, map_some] at hclass
      have hlen := (held_take hn hK).length_eq
      rw [length_cons] at hlen
      -- Both orders of the two blocks are the same step.
      have hadd : ∀ u v, [u, v].Perm [f, g] → (m.node u.1).key ≤ (m.node v.1).key →
          ∃ m' rankClass' K', unbuild hp steps (some u.1) (addBlock m u.1 v.1)
              (update rankClass n none) = some (m', rankClass') ∧
            Stage m' hp none [] rankClass' K' ∧
            (cells (held K')).Perm (cells (f :: (gs ++ held K))) ∧
            Within (hp :: cells (f :: (gs ++ held K))) m m' := by
        intro u v huv hkey
        have hperm : (f :: (gs ++ held K)).Perm (u :: v :: (gs ++ held (update K n none))) :=
          ((((held_take hn hK).append_left gs).trans perm_middle).cons f).trans
            (huv.symm.append_right _)
        have hcells : (cells (below u v :: (gs ++ held (update K n none)))).Perm
            (cells (f :: (gs ++ held K))) :=
          (cells_below u v _).trans (cells_perm hperm).symm
        obtain ⟨m', rankClass', K', hrun, hstage, hperm', hwithin⟩ :=
          ih (h.add hn hK hrank huv hkey) (by rw [hcells.length_eq]; exact hfew) (by omega)
        refine ⟨m', rankClass', K', hrun, hstage, hperm'.trans hcells, ?_⟩
        have hmem : ∀ w ∈ [u, v], w.1 ∈ hp :: cells (f :: (gs ++ held K)) := fun w hw =>
          mem_cons_of_mem _ (mem_cells (hperm.mem_iff.2 (by
            rcases mem_pair.1 hw with rfl | rfl <;> simp)) mem_cons_self)
        exact (within_addBlock (hmem u (by simp)) (hmem v (by simp))).trans
          (hwithin.mono fun a ha => (hcells.cons hp).mem_iff.1 ha)
      by_cases hlt : (m.node f.1).key < (m.node g.1).key
      · obtain ⟨m', rankClass', K', hrun, hrest⟩ := hadd f g .rfl (by omega)
        refine ⟨m', rankClass', K', ?_, hrest⟩
        rw [unbuild, if_pos hbound]
        simp only [htoNat, hclass, if_pos hlt]
        exact hrun
      · obtain ⟨m', rankClass', K', hrun, hrest⟩ := hadd g f (.swap ..) (by omega)
        refine ⟨m', rankClass', K', ?_, hrest⟩
        rw [unbuild, if_pos hbound]
        simp only [htoNat, hclass, if_neg hlt]
        exact hrun

/-! ## The new path -/

theorem putBlocks_ok {is : List Nat} (hgs : Spread m (m.node hp).right gs)
    (hclass : ∀ i ∈ is, rankClass i = (K i).map Prod.fst) (hblock : ∀ f ∈ is.filterMap K, Block m f)
    (hnodup : (hp :: cells (is.filterMap K ++ gs)).Nodup) :
    ∃ m' gs', is.foldl (fun m i => putBlock hp m (rankClass i)) m = m' ∧
      Spread m' (m'.node hp).right gs' ∧ gs'.Perm (is.filterMap K ++ gs) ∧
      Within (hp :: cells (is.filterMap K ++ gs)) m m' := by
  induction is generalizing m gs with
  | nil => exact ⟨m, gs, rfl, hgs, .rfl, .refl _ m⟩
  | cons i is ih =>
    have hi := hclass i mem_cons_self
    have hclass' : ∀ j ∈ is, rankClass j = (K j).map Prod.fst := fun j hj =>
      hclass j (mem_cons_of_mem _ hj)
    rw [foldl_cons, hi]
    cases hK : K i with
    | none =>
      rw [filterMap_cons, hK] at hblock hnodup ⊢
      exact ih hgs hclass' hblock hnodup
    | some f =>
      rw [filterMap_cons, hK] at hblock hnodup ⊢
      have hperm : (is.filterMap K ++ f :: gs).Perm (f :: is.filterMap K ++ gs) := perm_middle
      have hnodup' : (hp :: cells (is.filterMap K ++ f :: gs)).Nodup :=
        ((cells_perm hperm).cons hp).nodup_iff.2 hnodup
      obtain ⟨hhp, hcells⟩ := nodup_cons.1 hnodup'
      rw [cells_append] at hhp hcells
      obtain ⟨-, hfgs, hdisj⟩ := nodup_append.1 hcells
      have hhp' : hp ∉ cells (f :: gs) := fun hmem => hhp (mem_append_right _ hmem)
      have hcons := (Spread.cons (hblock f mem_cons_self) hgs hfgs).modify hhp' fun n =>
        { n with right := some f.1 }
      have hf : f.1 ∈ hp :: cells (f :: is.filterMap K ++ gs) := by simp
      have hrest : ∀ g ∈ is.filterMap K, Block
          ((m.setLeft f.1 (m.node hp).right).setRight hp (some f.1)) g := fun g hg =>
        ((hblock g (mem_cons_of_mem _ hg)).setLeft (a := f.1)
          (fun hmem => hdisj _ (mem_cells_below hg hmem) _ mem_cons_self rfl) _).modify
          (fun hmem => hhp (mem_append_left _ (mem_cells hg hmem))) _
      have htop : Spread ((m.setLeft f.1 (m.node hp).right).setRight hp (some f.1))
          (((m.setLeft f.1 (m.node hp).right).setRight hp (some f.1)).node hp).right
          (f :: gs) := by
        rw [Mem.right_setRight_self]
        exact hcons
      obtain ⟨m', gs', hrun, hspread, hperm', hwithin⟩ := ih htop hclass' hrest hnodup'
      refine ⟨m', gs', hrun, hspread, hperm'.trans hperm, ?_⟩
      exact (((Within.refl _ m).modify hf rfl).modify mem_cons_self rfl).trans
        (hwithin.mono fun a ha => ((cells_perm hperm).cons hp).mem_iff.1 ha)

theorem rebuild_ok (h : Stage m hp none [] rankClass K) :
    ∃ fs, Spread (rebuild hp m rankClass) ((rebuild hp m rankClass).node hp).right fs ∧
      fs.Perm (held K) ∧ Within (hp :: cells (held K)) m (rebuild hp m rankClass) := by
  have hnodup : (hp :: cells (held K)).Nodup := h.nodup
  have hhp := (nodup_cons.1 hnodup).1
  have hblock : ∀ f ∈ held K, Block (m.setRight hp none) f := by
    intro f hf
    obtain ⟨i, hi, hK⟩ := mem_held.1 hf
    exact (h.slot i hi f hK).1.modify (fun hmem => hhp (mem_cells hf hmem)) _
  have hempty : Spread (m.setRight hp none) ((m.setRight hp none).node hp).right [] := by
    rw [Mem.right_setRight_self]
    exact ⟨rfl, fun _ hf => absurd hf not_mem_nil⟩
  have hclass : ∀ i ∈ List.range 100, rankClass i = (K i).map Prod.fst := fun i hi =>
    h.class_eq i (mem_range.1 hi)
  obtain ⟨m', fs, rfl, hspread, hperm, hwithin⟩ :=
    putBlocks_ok hempty hclass hblock (by rw [append_nil]; exact hnodup)
  rw [append_nil] at hperm hwithin
  exact ⟨fs, hspread, hperm, ((Within.refl _ m).modify mem_cons_self rfl).trans hwithin⟩

/-- `relink` has come from `tmp` to the end of the path `l`, with `mn` the minimum before:
the path has its `up` pointers, and the heap those to its end and to its minimum. -/
structure Relinked (m m' : Mem ο) (hp tmp mn : Nat) (l : List Nat) : Prop where
  chain : (tmp :: l).IsChain fun a b => (m'.node b).up = some a
  last : (m'.node hp).up = (tmp :: l).getLast?
  min : ∃ a ∈ mn :: l, (m'.node hp).left = some a ∧ ∀ b ∈ mn :: l, (m.node a).key ≤ (m.node b).key
  same : ∀ a, a ≠ hp → Same (m.node a) (m'.node a)
  right : (m'.node hp).right = (m.node hp).right
  within : Within (hp :: l) m m'

theorem relink_ok (steps : Nat) {tmp mn : Nat} {l : List Nat}
    (hpath : Path m.left (m.left tmp) l none) (hhp : hp ∉ l) (hnodup : l.Nodup)
    (hmn : (m.node hp).left = some mn) (hsteps : l.length < steps) :
    ∃ m', relink hp steps tmp (m.node mn).key m = some m' ∧ Relinked m m' hp tmp mn l := by
  induction steps generalizing m tmp mn l with
  | zero => omega
  | succ steps ih =>
    cases l with
    | nil =>
      have hleft : (m.node tmp).left = none := hpath
      refine ⟨m.setUp hp (some tmp), by rw [relink, hleft], .singleton _, by simp,
        ⟨mn, by simp, by simp [hmn], by simp⟩, fun a _ => .setUp, by simp,
        (Within.refl _ m).modify mem_cons_self rfl⟩
    | cons b l =>
      obtain ⟨hleft, hpath⟩ := hpath
      have hleft : (m.node tmp).left = some b := hleft
      obtain ⟨hb, hnodup⟩ := nodup_cons.1 hnodup
      simp only [mem_cons, not_or] at hhp
      rw [length_cons] at hsteps
      -- One round, with `w` the minimum after it and `m1` the memory.
      have hround : ∀ (m1 : Mem ο) (w : Nat), Within [hp, b] m m1 → w ∈ [mn, b] →
          (m.node w).key ≤ (m.node mn).key → (m.node w).key ≤ (m.node b).key →
          (m1.node hp).left = some w → (∀ a, a ≠ hp → Same (m.node a) (m1.node a)) →
          (m1.node hp).right = (m.node hp).right → (m1.node b).up = some tmp →
          ∃ m', relink hp steps b (m1.node w).key m1 = some m' ∧
            Relinked m m' hp tmp mn (b :: l) := by
        intro m1 w hwithin hw hwmn hwb hw' hsame hright hup
        have hpath1 : Path m1.left (m1.left b) l none := by
          rw [show m1.left b = m.left b from (hsame b (Ne.symm hhp.1)).left]
          refine hpath.congr fun c hc => (hsame c ?_).left
          rintro rfl
          exact hhp.2 hc
        obtain ⟨m', hrun, h'⟩ := ih hpath1 hhp.2 hnodup hw' (by omega)
        obtain ⟨a, ha, hmin, hleast⟩ := h'.min
        have hkeys : ∀ c, (m1.node c).key = (m.node c).key := hwithin.key
        simp only [hkeys] at hleast
        refine ⟨m', hrun, ?_, by rw [h'.last]; simp, ⟨a, ?_, hmin, ?_⟩,
          fun a ha => (hsame a ha).trans (h'.same a ha), h'.right.trans hright, ?_⟩
        · refine isChain_cons_cons.2 ⟨?_, h'.chain⟩
          rw [h'.within.same b (by simp [hb, Ne.symm hhp.1]), hup]
        · have hw := mem_pair.1 hw
          rcases mem_cons.1 ha with rfl | ha
          · rcases hw with rfl | rfl <;> simp
          · simp [ha]
        · have haw := hleast w mem_cons_self
          intro c hc
          rcases mem_cons.1 hc with rfl | hc
          · omega
          · rcases mem_cons.1 hc with rfl | hc
            · omega
            · exact hleast c (mem_cons_of_mem _ hc)
        · refine (hwithin.mono ?_).trans (h'.within.mono ?_)
          · intro a ha
            rcases mem_pair.1 ha with rfl | rfl <;> simp
          · intro a ha
            rcases mem_cons.1 ha with rfl | ha <;> simp [*]
      have hup : Within [hp, b] m (m.setUp b (some tmp)) := (Within.refl _ m).modify (by simp) rfl
      rw [relink, hleft]
      simp only [Mem.read_setUp]
      by_cases hlt : (m.node b).key < (m.node mn).key
      · rw [if_pos hlt]
        have h := hround ((m.setUp b (some tmp)).setLeft hp (some b)) b (hup.modify (by simp) rfl)
          (by simp) (by omega) (by omega) (by simp)
          (fun a ha => by rw [Mem.node_setLeft_ne ha]; exact .setUp)
          (by simp) (by simp)
        simpa using h
      · rw [if_neg hlt]
        have h := hround (m.setUp b (some tmp)) mn hup (by simp) (by omega) (by omega)
          (by simp [hmn])
          (fun a _ => .setUp) (by simp) (by simp)
        simpa using h

/-- The clean-up phase makes a heap of any forest on the leftmost path. -/
theorem cleanUp_ok (hfs : Spread m (m.node hp).right fs) (hne : fs ≠ [])
    (hnodup : (hp :: cells fs).Nodup) (hnext : ∀ a ∈ cells fs, a < m.next)
    (hfew : (cells fs).length < 2 ^ 100) :
    ∃ m' gs, cleanUp m hp = some m' ∧ Heap m' hp gs ∧ (cells gs).Perm (cells fs) ∧
      Within (hp :: cells fs) m m' := by
  obtain ⟨f, gs, rfl⟩ := exists_cons_of_ne_nil hne
  have hright : (m.node hp).right = some f.1 := hfs.path.1
  have hstage : Stage m hp none (f :: gs) (fun _ => none) (fun _ => none) :=
    ⟨by simp, hfs, by simp, by simp, by simpa [held_empty] using hnodup⟩
  have hlen := length_le_of_nodup (nodup_cons.1 hnodup).2 hnext
  have htops : gs.length ≤ (cells (f :: gs)).length := by
    have hsub := (tops_sublist (f :: gs)).length_le
    rw [tops, length_map, length_cons] at hsub
    omega
  obtain ⟨m1, rankClass, K, hrun, hstage1, hperm1, hwithin1⟩ :=
    unbuild_ok (3 * m.next + 3) hstage.take (by simpa [held_empty] using hfew)
      (by simp only [held_empty, length_nil]; omega)
  rw [held_empty, append_nil] at hperm1 hwithin1
  obtain ⟨fs', hspread, hperm2, hwithin2⟩ := rebuild_ok hstage1
  set m2 := rebuild hp m1 rankClass
  have hcells : (cells fs').Perm (cells (f :: gs)) := (cells_perm hperm2).trans hperm1
  have hnodup' : (hp :: cells fs').Nodup := (hcells.cons hp).nodup_iff.2 hnodup
  obtain ⟨g, fs', rfl⟩ : ∃ g fs'', fs' = g :: fs'' := by
    refine exists_cons_of_ne_nil ?_
    rintro rfl
    exact absurd hcells.length_eq (by simp)
  have htop : (m2.node hp).right = some g.1 := hspread.path.1
  have hhp := (nodup_cons.1 hnodup').1
  have hwithin : Within (hp :: cells (f :: gs)) m m2 :=
    (((Within.refl _ m).modify mem_cons_self rfl).trans hwithin1).trans
      (hwithin2.mono fun a ha => (hperm1.cons hp).mem_iff.1 ha)
  have hspread3 : Spread (m2.setLeft hp (some g.1)) _ _ := hspread.modify hhp _
  have htopsnd := (nodup_cons.1 hnodup').2.sublist (tops_sublist _)
  have hnext2 : (m2.setLeft hp (some g.1)).next = m.next := hwithin.next
  have hlen' := hcells.length_eq
  have hsub := (tops_sublist (g :: fs')).length_le
  obtain ⟨m4, hrelink, h4⟩ := relink_ok (m.next + 1) (m := m2.setLeft hp (some g.1)) (l := tops fs')
      hspread3.path.2 (fun hmem => hhp (mem_cells_of_mem_tops (mem_cons_of_mem _ hmem)))
      (nodup_cons.1 htopsnd).2 Mem.left_setLeft_self
      (by rw [tops_cons, length_cons] at hsub; omega)
  have hnothp : ∀ c ∈ cells (g :: fs'), c ≠ hp := by
    rintro c hc rfl
    exact hhp hc
  refine ⟨m4, g :: fs', ?_, ⟨?_, hnodup', h4.chain, ?_, ?_⟩, hcells, ?_⟩
  · simp only [cleanUp, hright, bind_eq_bind, bind_some]
    rw [show (m.setRight hp (m.node f.1).left).next = m.next from rfl, hrun]
    simp only [bind_some]
    rw [show rebuild hp m1 rankClass = m2 from rfl, htop]
    simp only [bind_some]
    rw [hnext2]
    exact hrelink
  · rw [h4.right, Mem.read_setLeft.1]
    exact hspread3.congr fun c hc => h4.same c (hnothp c hc)
  · intro _
    have hkey : ∀ c, (m4.node c).key = ((m2.setLeft hp (some g.1)).node c).key := h4.within.key
    obtain ⟨a, ha, hmin, hleast⟩ := h4.min
    refine ⟨a, ha, hmin, fun b hb => ?_⟩
    rw [hkey, hkey]
    exact hleast b hb
  · intro c hc
    rw [h4.last]
    exact hc
  · refine (hwithin.modify mem_cons_self rfl).trans (h4.within.mono ?_)
    intro c hc
    rcases mem_cons.1 hc with rfl | hc
    · exact mem_cons_self
    · exact (hcells.cons hp).mem_iff.1 (mem_cons_of_mem _
        (mem_cells_of_mem_tops (mem_cons_of_mem _ hc)))

/-! ## The whole function -/

theorem Heap.frame (h : Heap m hp fs) (heq : ∀ a ∈ hp :: cells fs, m'.node a = m.node a) :
    Heap m' hp fs := by
  have hhp := heq hp mem_cons_self
  have htops : ∀ a ∈ tops fs, m'.node a = m.node a := fun a ha =>
    heq a (mem_cons_of_mem _ (mem_cells_of_mem_tops ha))
  refine ⟨?_, h.nodup, ?_, ?_, ?_⟩
  · rw [hhp]
    exact h.spread.frame fun a ha => heq a (mem_cons_of_mem _ ha)
  · refine h.ups.imp_of_mem_imp fun a b _ hb hup => ?_
    rw [htops b hb, hup]
  · intro hne
    obtain ⟨a, ha, hleft, hleast⟩ := h.min hne
    refine ⟨a, ha, by rw [hhp, hleft], fun b hb => ?_⟩
    rw [htops a ha, htops b hb]
    exact hleast b hb
  · intro a ha
    rw [hhp, h.last a ha]

/-- The heap `hp` has the forest `fs` now, the nodes `rest` of the other heaps are as before, and
those in `S` have their keys and objects. -/
structure Becomes (m m' : Mem ο) (hp : Nat) (fs : Forest) (rest S : List Nat) : Prop where
  heap : Heap m' hp fs
  beside : m.Beside rest (hp :: cells fs) m'
  kept : ∀ a ∈ S, (m'.node a).elem = (m.node a).elem

theorem Node.elem_returnNode (m : Mem ο) (d a : Nat) :
    ((m.returnNode d).node a).elem = (m.node a).elem :=
  Pool.read_returnNode Node.elem (by intros; rfl) a

/-- A node that is in no heap goes back to the pool. -/
theorem Heap.returnNode {d : Nat} (h : Heap m' hp fs) (hb : m.Beside rest (d :: hp :: cells fs) m')
    (hkept : ∀ a ∈ S, (m'.node a).elem = (m.node a).elem) :
    Becomes m (m'.returnNode d) hp fs rest S where
  heap := h.frame fun _ ha => Pool.node_returnNode_ne fun heq =>
    (nodup_cons.1 hb.nodup).1 (heq ▸ ha)
  beside := hb.returnNode
  kept a ha := (Node.elem_returnNode m' d a).trans (hkept a ha)

theorem cells_split (pre post : Forest) (a : Nat) (r : Bin) :
    (cells (pre ++ (a, r) :: post)).Perm (a :: cells (r.roots ++ (pre ++ post))) := by
  rw [cells_append, cells_cons, cells_append, cells_append, cells_roots]
  refine perm_middle.trans (.cons _ ?_)
  rw [← append_assoc, ← append_assoc]
  exact perm_append_comm.append_right _

/-- `delete_min` takes a node with the least key out of the heap; `rest` are the
nodes of the other heaps. -/
theorem deleteMin_ok (h : Heap m hp fs) (hne : fs ≠ []) (hown : m.Holds (hp :: cells fs ++ rest))
    (hfew : (cells fs).length < 2 ^ 100) :
    ∃ m' mn gs, deleteMin m hp = some (m', some (m.node mn).object) ∧
      (∀ a ∈ cells fs, (m.node mn).key ≤ (m.node a).key) ∧ (cells fs).Perm (mn :: cells gs) ∧
      Becomes m m' hp gs rest (cells gs) := by
  obtain ⟨mn, hmem, hleft, hmin⟩ := h.min hne
  have hleast : ∀ a ∈ cells fs, (m.node mn).key ≤ (m.node a).key := fun a ha =>
    h.spread.least hmin ha
  obtain ⟨r, hmem⟩ := mem_tops.1 hmem
  obtain ⟨pre, post, rfl⟩ := append_of_mem hmem
  obtain ⟨m1, last, r', gs, hunlink, hlast, hmore, hlies, hspread, hperm, hwithin⟩ := unlinkMin_ok h
  have hcells := (cells_split pre post mn r).trans ((cells_perm hperm).symm.cons mn)
  -- The nodes, with the minimum apart from those that stay.
  have hb1 : m.Beside rest (mn :: hp :: cells (r'.roots ++ gs)) m1 :=
    ((Pool.Beside.refl hown).within hwithin fun _ h => h).perm ((hcells.cons hp).trans (.swap ..))
  obtain ⟨hmn, hheap⟩ := nodup_cons.1 hb1.nodup
  obtain ⟨top, hright⟩ : ∃ top, (m.node hp).right = some top := by
    obtain ⟨f, fs, heq⟩ := exists_cons_of_ne_nil hne
    have hpath := h.spread.path
    rw [heq] at hpath
    exact ⟨f.1, hpath.1⟩
  cases last with
  | true =>
    obtain ⟨rfl, rfl⟩ := hlast rfl
    have hempty : Heap m1 hp [] := ⟨hspread, by simp, .nil, by simp, by simp⟩
    refine ⟨m1.returnNode mn, mn, [], ?_, hleast, hcells, ?_⟩
    · simp [deleteMin, hright, hleft, hunlink]
    · exact hempty.returnNode hb1 (by simp)
  | false =>
    obtain ⟨m2, hmove, hspread2, hwithin2⟩ := moveChildren_ok hlies hspread (hmore rfl)
      (by rwa [← cells_append]) fun a ha => hb1.holds.lt_next (by simp [ha])
    rw [← cells_append] at hwithin2
    have hb2 : m.Beside rest (hp :: cells (r'.roots ++ gs)) (m2.returnNode mn) :=
      (hb1.within hwithin2 fun _ => mem_cons_of_mem mn).returnNode
    have hback : ∀ a ∈ hp :: cells (r'.roots ++ gs), (m2.returnNode mn).node a = m2.node a :=
      fun a ha =>
      Pool.node_returnNode_ne fun heq => hmn (heq ▸ ha)
    have hlen := hcells.length_eq
    rw [length_cons] at hlen
    have hpath : Spread (m2.returnNode mn) ((m2.returnNode mn).node hp).right (r'.roots ++ gs) := by
      rw [hback hp mem_cons_self]
      exact hspread2.frame fun a ha => hback a (mem_cons_of_mem _ ha)
    obtain ⟨m3, gs3, hclean, hheap3, hperm3, hwithin3⟩ :=
      cleanUp_ok hpath (by simp [hmore rfl]) hheap
      (fun a ha => hb2.holds.lt_next (mem_append_left _ (mem_cons_of_mem _ ha))) (by omega)
    refine ⟨m3, mn, gs3, ?_, hleast, hcells.trans (hperm3.symm.cons mn), hheap3,
      (hb2.within hwithin3 fun _ h => h).perm (hperm3.symm.cons hp), fun a _ => ?_⟩
    · simp [deleteMin, hright, hleft, hunlink, hmove, hclean]
    · rw [hwithin3.read, Node.elem_returnNode, hwithin2.read, hwithin.read]

end CLangProject.FiboHeap

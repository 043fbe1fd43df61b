import CLangProject.BinoForest

/-!
# `merge`

The blocks of both heaps are pushed on a stack, the higher ones first, and then taken off and added
like the digits of two binary numbers. `Adds` says which heights can meet there. No node is lost,
and no element leaves its node (`Pool.Within`).
-/

namespace CLangProject.BinoHeap

open Forest List Option

variable {ο : Type} {m m' : Mem ο} {a b : Nat} {p q : Ptr} {f g : Block} {fs gs : Forest}

/-! ## The stack -/

variable {st cs : List Nat}

theorem push_of_lt (h : st.length < 100) : push st a = some (a :: st) := if_pos h

theorem ends_pushRest (h : Spread m p fs) (hlen : st.length + fs.length ≤ 100) :
    Ends (pushRest m · p st) ((tops fs).reverse ++ st) := by
  induction fs generalizing p st with
  | nil =>
    obtain rfl : p = none := h.path
    exact .of_succ fun _ => rfl
  | cons f fs ih =>
    obtain rfl : p = some f.top := h.path.1
    rw [length_cons] at hlen
    have hlen' : (f.top :: st).length + fs.length ≤ 100 := by
      rw [length_cons]
      omega
    have hrest := ih h.of_cons.2.2 hlen'
    rw [tops_cons, reverse_cons, append_assoc]
    refine hrest.step fun fuel => ?_
    simp only [pushRest, push_of_lt (show st.length < 100 by omega), bind_eq_bind, bind_some]

theorem Spread.left_last {l : Forest} (h : Spread m p (l ++ [f])) : m.left f.top = none := by
  have hpath := h.path
  rw [tops_append, tops_cons] at hpath
  exact hpath.suffix

/-- The blocks in the order in which they are pushed. -/
def pushOrder (fs gs : Forest) : Forest := List.merge gs fs fun g f => decide (f.height ≤ g.height)

theorem ends_pushBoth (hf : Spread m p fs) (hg : Spread m q gs) (hne : fs ≠ [] ∨ gs ≠ [])
    (hlen : st.length + (fs.length + gs.length) ≤ 100) :
    ∃ ps fs' gs' p' q', pushOrder fs gs = ps ++ (fs' ++ gs') ∧
      Spread m p' fs' ∧ Spread m q' gs' ∧ (fs' = [] ∧ gs' ≠ [] ∨ fs' ≠ [] ∧ gs' = []) ∧
      Ends (pushBoth m · p q st) (p', q', (tops ps).reverse ++ st) := by
  obtain ⟨n, hn⟩ : ∃ n, fs.length + gs.length = n := ⟨_, rfl⟩
  induction n generalizing p q fs gs st with
  | zero => simp_all
  | succ n ih =>
    cases fs with
    | nil =>
      obtain rfl : p = none := hf.path
      have hgs : gs ≠ [] := hne.resolve_left (· rfl)
      refine ⟨[], [], gs, none, q, ?_, hf, hg, .inl ⟨rfl, hgs⟩, .of_succ fun _ => ?_⟩
      · simp [pushOrder]
      · cases q <;> rfl
    | cons f fs =>
      obtain rfl : p = some f.top := hf.path.1
      cases gs with
      | nil =>
        obtain rfl : q = none := hg.path
        refine ⟨[], f :: fs, [], _, none, ?_, hf, hg, .inr ⟨nofun, rfl⟩, .of_succ fun _ => rfl⟩
        simp [pushOrder]
      | cons g gs =>
        obtain rfl : q = some g.top := hg.path.1
        simp only [length_cons] at hlen hn
        have hpush : ∀ a, push st a = some (a :: st) := fun a => push_of_lt (by omega)
        obtain ⟨-, hflies, hf'⟩ := hf.of_cons
        obtain ⟨-, hglies, hg'⟩ := hg.of_cons
        by_cases hgt : (m.node f.top).height > (m.node g.top).height
        · have hlen' : (f.top :: st).length + (fs.length + (g :: gs).length) ≤ 100 := by
            simp only [length_cons]
            omega
          obtain ⟨ps, fs', gs', p', q', horder, hfs', hgs', hne', hends⟩ :=
            ih hf' hg (.inr nofun) hlen' (by simp only [length_cons]; omega)
          refine ⟨f :: ps, fs', gs', p', q', ?_, hfs', hgs', hne', ?_⟩
          · rw [hflies.height, hglies.height] at hgt
            have hlt : ¬f.height ≤ g.height := by omega
            rw [pushOrder, List.merge, if_neg (by simpa using hlt), cons_append,
              ← horder, pushOrder]
          · rw [tops_cons, reverse_cons, append_assoc]
            refine hends.step fun fuel => ?_
            simp only [pushBoth, if_pos hgt, hpush, bind_eq_bind, bind_some]
        · have hlen' : (g.top :: st).length + ((f :: fs).length + gs.length) ≤ 100 := by
            simp only [length_cons]
            omega
          obtain ⟨ps, fs', gs', p', q', horder, hfs', hgs', hne', hends⟩ :=
            ih hf hg' (.inl nofun) hlen' (by simp only [length_cons]; omega)
          refine ⟨g :: ps, fs', gs', p', q', ?_, hfs', hgs', hne', ?_⟩
          · rw [hflies.height, hglies.height] at hgt
            have hle : f.height ≤ g.height := by omega
            rw [pushOrder, List.merge, if_pos (by simpa using hle), cons_append,
              ← horder, pushOrder]
          · rw [tops_cons, reverse_cons, append_assoc]
            refine hends.step fun fuel => ?_
            simp only [pushBoth, if_neg hgt, hpush, bind_eq_bind, bind_some]

theorem pushOrder_perm (fs gs : Forest) : (pushOrder fs gs).Perm (fs ++ gs) :=
  (merge_perm_append ..).trans perm_append_comm

/-- The stack before the addition. The first block to be taken from it is the last one of a path. -/
theorem ends_stack (hf : Spread m p (f :: fs)) (hg : Spread m q (g :: gs))
    (hlen : (f :: fs).length + (g :: gs).length ≤ 100) :
      ∃ x st, (pushOrder (f :: fs) (g :: gs)).reverse = x :: st ∧ (∀ y ∈ x :: st, y.Lies m) ∧
      m.left x.top = none ∧ ∃ tmp1 tmp2 st1 st2, Ends (pushBoth m · p q []) (tmp1, tmp2, st1) ∧
      Ends (pushRest m · tmp1 st1) st2 ∧ Ends (pushRest m · tmp2 st2) (x.top :: tops st) := by
  have hempty : ([] : List Nat).length + ((f :: fs).length + (g :: gs).length) ≤ 100 := by
    rwa [length_nil, Nat.zero_add]
  obtain ⟨ps, fs', gs', p', q', horder, hfs', hgs', hne, hboth⟩ :=
    ends_pushBoth hf hg (.inl nofun) hempty
  have hlength : ps.length + (fs'.length + gs'.length) ≤ 100 := by
    have := (pushOrder_perm (f :: fs) (g :: gs)).length_eq
    rw [horder, length_append, length_append, length_append] at this
    omega
  obtain ⟨l, x, hlast, hleft⟩ : ∃ l x, fs' ++ gs' = l ++ [x] ∧ m.left x.top = none := by
    rcases hne with ⟨rfl, hne⟩ | ⟨hne, rfl⟩
    · obtain ⟨l, x, rfl⟩ := (eq_nil_or_concat' gs').resolve_left hne
      exact ⟨l, x, rfl, hgs'.left_last⟩
    · obtain ⟨l, x, rfl⟩ := (eq_nil_or_concat' fs').resolve_left hne
      exact ⟨l, x, append_nil _, hfs'.left_last⟩
  have hstack : (pushOrder (f :: fs) (g :: gs)).reverse = x :: (ps ++ l).reverse := by
    rw [horder, hlast, ← append_assoc, reverse_concat]
  refine ⟨x, (ps ++ l).reverse, hstack, fun y hy => ?_, hleft, ?_⟩
  · rw [← hstack, mem_reverse, (pushOrder_perm ..).mem_iff, mem_append] at hy
    exact hy.elim (hf.block y) (hg.block y)
  · have hlen1 : ((tops ps).reverse ++ []).length + fs'.length ≤ 100 := by
      simp [tops]
      omega
    have hlen2 : ((tops fs').reverse ++ ((tops ps).reverse ++ [])).length + gs'.length ≤ 100 := by
      simp [tops]
      omega
    have hrest1 := ends_pushRest hfs' hlen1
    have hrest2 := ends_pushRest hgs' hlen2
    have htops : (tops gs').reverse ++ ((tops fs').reverse ++ ((tops ps).reverse ++ [])) =
        x.top :: tops (ps ++ l).reverse := by
      rw [← tops_cons, ← hstack, horder]
      simp [tops]
    rw [htops] at hrest2
    exact ⟨p', q', _, _, hboth, hrest1, hrest2⟩

theorem twofold_pushOrder (hf : (heights fs).Pairwise (· > ·))
    (hg : (heights gs).Pairwise (· > ·)) :
    Twofold (heights (pushOrder fs gs).reverse) := by
  have hsorted : ∀ {l : Forest}, (heights l).Pairwise (· > ·) → l.Pairwise fun g f =>
    decide (f.height ≤ g.height) = true :=
    fun hl => (pairwise_map.1 hl).imp fun hlt => decide_eq_true (Nat.le_of_lt hlt)
  constructor
  · rw [heights, map_reverse, pairwise_reverse, pairwise_map]
    refine (pairwise_merge (fun a b c hab hbc => ?_) (fun a b => ?_) gs fs (hsorted hg)
      (hsorted hf)).imp of_decide_eq_true
    · exact decide_eq_true (Nat.le_trans (of_decide_eq_true hbc) (of_decide_eq_true hab))
    · rw [Bool.or_eq_true, decide_eq_true_iff, decide_eq_true_iff]
      exact Nat.le_total ..
  · intro x
    have hperm : (heights (pushOrder fs gs).reverse).Perm (heights fs ++ heights gs) := by
      rw [← heights_append]
      exact ((reverse_perm _).trans (pushOrder_perm fs gs)).map _
    rw [hperm.count_eq, count_append]
    have hfx := nodup_iff_count_le_one.1 (hf.imp Nat.ne_of_gt) x
    have hgx := nodup_iff_count_le_one.1 (hg.imp Nat.ne_of_gt) x
    omega

/-! ## Addition -/

/-- The block `g` is put below `f`, and `f` in front of the path `p`. -/
theorem Spread.link (hf : f.Lies m) (hg : g.Lies m) (hfs : Spread m p fs)
    (hheight : f.height = g.height) (hle : (m.node f.top).key ≤ (m.node g.top).key)
    (hnodup : (cells (f :: g :: fs)).Nodup)
    (hfnode : m'.node f.top =
      { m.node f.top with height := f.height + 1, left := p, right := some g.top })
    (hgnode : m'.node g.top = { m.node g.top with left := (m.node f.top).right })
    (hsame : ∀ a, a ≠ f.top → a ≠ g.top → m'.node a = m.node a) :
    Spread m' (some f.top) (f.link g :: fs) := by
  rw [cells_cons, cells_cons] at hnodup
  obtain ⟨hftop, hrest⟩ := nodup_cons.1 hnodup
  have hgtop := (nodup_cons.1 (nodup_middle.1 hrest)).1
  have hne : f.top ≠ g.top := fun heq => hftop (heq ▸ by simp)
  have hsame' : ∀ a ∈ f.below ++ (g.below ++ cells fs), m'.node a = m.node a := fun a ha =>
    hsame a (fun heq => hftop (heq ▸ ((sublist_cons_self ..).append_left _).subset ha)) fun heq =>
      hgtop (heq ▸ ha)
  obtain ⟨hfbelow, hgbelow, hpath⟩ := (forall_mem_append.1 hsame').imp_right forall_mem_append.1
  have hkey : ∀ a, (m'.node a).key = (m.node a).key := by
    intro a
    by_cases haf : a = f.top
    · rw [haf, hfnode]
    · by_cases hag : a = g.top
      · rw [hag, hgnode]
      · rw [hsame a haf hag]
  have hlies : (f.link g).Lies m' := by
    refine hf.link hg hheight hle hkey (forall_mem_append.2 ⟨hgbelow, hfbelow⟩) ?_ ?_ ?_ ?_ ?_
    · rw [hfnode]
    · rw [hfnode]
    · rw [hgnode]
      exact hg.height
    · rw [hgnode]
    · rw [hgnode]
  refine .cons_of (f := f.link g) hlies ?_
  have hleft : m'.left f.top = p := congrArg Node.left hfnode
  rw [Block.link, hleft]
  exact hfs.frame hpath

/-- One block is taken from the stack. -/
theorem addBlocks_step (hspread : Spread m (some f.top) (f :: fs)) (hg : g.Lies m)
    (hnodup : (cells (g :: f :: fs)).Nodup) {S : List Nat}
    (hadds : Adds f.height (heights fs) (g.height :: S)) (st : List Nat) :
      ∃ m' f' fs', addBlocks m f.top (g.top :: st) = addBlocks m' f'.top st ∧
      Spread m' (some f'.top) (f' :: fs') ∧ (cells (f' :: fs')).Perm (cells (g :: f :: fs)) ∧
      Pool.Within Node.elem (cells (g :: f :: fs)) m m' ∧ Adds f'.height (heights fs') S := by
  obtain ⟨-, hf, hfs⟩ := hspread.of_cons
  have hfmem : f.top ∈ cells (g :: f :: fs) := by simp
  have hgmem : g.top ∈ cells (g :: f :: fs) := by simp
  have hswap : (cells (f :: g :: fs)).Perm (cells (g :: f :: fs)) :=
    (Perm.swap g f fs).flatMap_right _
  have hnodup' := hswap.nodup_iff.2 hnodup
  have hne : f.top ≠ g.top := by
    rw [cells_cons, cells_cons] at hnodup
    exact fun heq => (nodup_cons.1 hnodup).1 (heq ▸ by simp)
  have hwithin := Pool.Within.refl Node.elem (cells (g :: f :: fs)) m
  rcases Nat.lt_trichotomy f.height g.height with hlt | heq | hgt
  · refine ⟨_, g, f :: fs, ?_, .cons hg hspread hnodup, .rfl, hwithin.modify hgmem rfl,
      hadds.front hlt⟩
    rw [addBlocks, if_pos (by rw [hf.height, hg.height]; omega)]
  · have hnot : ¬(m.node g.top).height > (m.node f.top).height := by
      rw [hf.height, hg.height]
      omega
    have heqh : (m.node g.top).height = (m.node f.top).height := by rw [hf.height, hg.height, heq]
    have hcarry : Adds (f.height + 1) (heights fs) S := by
      rw [← heq] at hadds
      exact hadds.carry
    by_cases hkey : (m.node g.top).key < (m.node f.top).key
    · rw [addBlocks, if_neg hnot, if_pos heqh, if_pos hkey]
      refine ⟨_, g.link f, fs, rfl, .link hg hf hfs heq.symm (Int.le_of_lt hkey) hnodup ?_ ?_ ?_,
        (g.cells_link f).append_right _ |>.trans (by rw [append_assoc]; rfl), ?_, ?_⟩
      · simp [Mem.setLeft, Mem.setRight, Mem.setHeight, hne.symm, hg.height, Mem.left]
      · simp [Mem.setLeft, Mem.setRight, Mem.setHeight, hne]
      · intro a hag haf
        simp [Mem.setLeft, Mem.setRight, Mem.setHeight, hag, haf]
      · exact (((hwithin.modify hgmem rfl).modify hfmem rfl).modify hgmem rfl).modify hgmem rfl
      · rw [Block.link, ← heq]
        exact hcarry
    · rw [addBlocks, if_neg hnot, if_pos heqh, if_neg hkey]
      refine ⟨_, f.link g, fs, rfl, .link hf hg hfs heq (Int.not_lt.1 hkey) hnodup' ?_ ?_ ?_,
        ((f.cells_link g).append_right _ |>.trans (by rw [append_assoc]; rfl)).trans hswap, ?_,
        hcarry⟩
      · simp [Mem.setLeft, Mem.setRight, Mem.setHeight, hne, hf.height, Mem.left]
      · simp [Mem.setLeft, Mem.setRight, Mem.setHeight, hne.symm]
      · intro a haf hag
        simp [Mem.setLeft, Mem.setRight, Mem.setHeight, hag, haf]
      · exact ((hwithin.modify hgmem rfl).modify hfmem rfl).modify hfmem rfl
  · have hg' : Spread (m.setLeft g.top (m.left f.top)) (some g.top) (g :: fs) := by
      refine .cons hg hfs ?_
      exact hnodup.sublist ((sublist_append_right f.cells (cells fs)).append_left g.cells)
    refine ⟨_, f, g :: fs, ?_, .cons (hf.setLeft ?_ _) hg' hnodup', hswap, ?_, hadds.below hgt⟩
    · rw [addBlocks, if_neg (by rw [hf.height, hg.height]; omega),
        if_neg (by rw [hf.height, hg.height]; omega)]
      rfl
    · rw [cells_cons, cells_cons] at hnodup
      exact fun hmem => (nodup_cons.1 hnodup).1 (by simp [hmem])
    · exact (hwithin.modify hgmem rfl).modify hfmem rfl

theorem addBlocks_ok (hspread : Spread m (some f.top) (f :: fs)) (hgs : ∀ g ∈ gs, g.Lies m)
    (hnodup : (cells gs ++ cells (f :: fs)).Nodup)
    (hadds : Adds f.height (heights fs) (heights gs)) :
    ∃ fs', Spread (addBlocks m f.top (tops gs)).2 (some (addBlocks m f.top (tops gs)).1) fs' ∧
      (heights fs').Pairwise (· > ·) ∧ (cells fs').Perm (cells gs ++ cells (f :: fs)) ∧
      Pool.Within Node.elem (cells gs ++ cells (f :: fs)) m (addBlocks m f.top (tops gs)).2 := by
  induction gs generalizing m f fs with
  | nil => exact ⟨f :: fs, hspread, hadds.sum, .rfl, .refl ..⟩
  | cons g gs ih =>
    obtain ⟨hg, hgs⟩ := forall_mem_cons.1 hgs
    -- the block `g` joins the path
    have hperm : (cells (g :: gs) ++ cells (f :: fs)).Perm (cells gs ++ cells (g :: f :: fs)) := by
      show (g.cells ++ cells gs ++ cells (f :: fs)).Perm (cells gs ++ (g.cells ++ cells (f :: fs)))
      rw [← append_assoc]
      exact perm_append_comm.append_right _
    have hnodup' := hperm.nodup_iff.1 hnodup
    obtain ⟨-, hpath, hdisj⟩ := nodup_append.1 hnodup'
    obtain ⟨m', f', fs', hadd, hspread', hcells, hwithin, hadds'⟩ :=
      addBlocks_step hspread hg hpath hadds (tops gs)
    have hgs' : ∀ x ∈ gs, x.Lies m' := fun x hx => (hgs x hx).frame fun a ha =>
      hwithin.same a fun hmem => hdisj a (mem_cells hx ha) a hmem rfl
    obtain ⟨fs'', hspread'', hsorted, hcells', hwithin'⟩ :=
      ih hspread' hgs' ((hcells.append_left _).nodup_iff.2 hnodup') hadds'
    rw [tops_cons, hadd]
    have htotal := (hcells.append_left (cells gs)).trans hperm.symm
    exact ⟨fs'', hspread'', hsorted, hcells'.trans htotal,
      (hwithin.mono fun a ha => hperm.mem_iff.2 (mem_append_right _ ha)).trans
        (hwithin'.mono fun a ha => htotal.mem_iff.1 ha)⟩

/-! ## The call -/

/-- The heap `hp` has the nodes `cs`, and at least one. -/
def Rooted (m : Mem ο) (hp : Nat) (cs : List Nat) : Prop := ∃ hs, LeftPath m (some hp) hs cs ∧
    hs.Pairwise (· > ·)

theorem rooted_iff : Rooted m a cs ↔
    ∃ f fs, Spread m (some a) (f :: fs) ∧ (heights (f :: fs)).Pairwise (· > ·) ∧
      cells (f :: fs) = cs := by
  constructor
  · rintro ⟨hs, hpath, hsorted⟩
    obtain ⟨fs, hfs, rfl, hcells⟩ := hpath.spread
    cases fs with
    | nil => exact absurd hfs.path nofun
    | cons f fs => exact ⟨f, fs, hfs, hsorted, hcells⟩
  · rintro ⟨f, fs, hfs, hsorted, rfl⟩
    exact ⟨_, hfs.leftPath, hsorted⟩

/-- The number of elements for which the 100 entries of `node_stack` are enough. -/
def maxElems : Nat := 2 ^ 51

theorem Spread.length_add_length_le (hf : Spread m p fs) (hg : Spread m q gs)
    (hfs : (heights fs).Pairwise (· > ·)) (hgs : (heights gs).Pairwise (· > ·))
    (hlen : (cells fs).length + (cells gs).length ≤ maxElems) :
    fs.length + gs.length ≤ 100 := by
  rw [hf.leftPath.length_eq, hg.leftPath.length_eq] at hlen
  have := CLangProject.length_add_length_le (k := 50) (by decide) hfs hgs hlen
  simpa [heights] using this

theorem Spread.height_ne (hf : Spread m (some a) (f :: fs)) : (m.node a).height ≠ -1 := by
  obtain ⟨rfl, hlies, -⟩ := hf.of_cons
  rw [hlies.height]
  omega

theorem Rooted.merge {ds : List Nat} (h1 : Rooted m a cs) (h2 : Rooted m b ds)
    (hnodup : (cs ++ ds).Nodup) (hlen : cs.length + ds.length ≤ maxElems) :
    ∃ c m' es, Ends (merge · m a b) (c, m') ∧ Rooted m' c es ∧
      es.Perm (cs ++ ds) ∧ Pool.Within Node.elem (cs ++ ds) m m' := by
  obtain ⟨f, fs, hfs, hfsorted, rfl⟩ := rooted_iff.1 h1
  obtain ⟨g, gs, hgs, hgsorted, rfl⟩ := rooted_iff.1 h2
  have hstack := hfs.length_add_length_le hgs hfsorted hgsorted hlen
  obtain ⟨x, st, hst, hlies, hleft, tmp1, tmp2, st1, st2, hboth, hrest1, hrest2⟩ :=
    ends_stack hfs hgs hstack
  have hperm : (x :: st).Perm (f :: fs ++ g :: gs) :=
    hst ▸ (reverse_perm _).trans (pushOrder_perm ..)
  have hcells : (cells st ++ cells [x]).Perm (cells (f :: fs) ++ cells (g :: gs)) := by
    rw [← cells_append, ← cells_append]
    exact (perm_append_comm.trans hperm).flatMap_right _
  obtain ⟨hx, hst'⟩ := forall_mem_cons.1 hlies
  have htwofold := twofold_pushOrder hfsorted hgsorted
  rw [hst] at htwofold
  have hadds : Adds x.height [] (heights st) := adds_singleton htwofold
  have hspread : Spread m (some x.top) [x] := .cons_of hx ⟨hleft, nofun⟩
  obtain ⟨fs', hfs', hsorted, hcells', hwithin⟩ :=
    addBlocks_ok hspread hst' (hcells.nodup_iff.2 hnodup) hadds
  refine ⟨_, _, cells fs', ?_, ⟨_, hfs'.leftPath, hsorted⟩, hcells'.trans hcells,
    hwithin.mono fun a => hcells.mem_iff.1⟩
  simp only [BinoHeap.merge, if_neg hfs.height_ne, if_neg hgs.height_ne]
  exact hboth.bind (hrest1.bind (hrest2.bind (.of_eq fun _ => rfl)))

end CLangProject.BinoHeap

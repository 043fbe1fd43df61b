import CLangProject.BinoMerge

/-!
# `find_min_key` and `delete_min`

The least key of a heap is on its left path. `delete_min` takes its block off the path and merges
what is left of it with the rest. The caller keeps the node `hp`, so that its contents move: into
the node that becomes free, for the merge, and from the first node of the result back into `hp`
(`Rooted.copy`, `Rooted.copyBack`).
-/

namespace CLangProject.BinoHeap

open Forest List

variable {ο : Type} {m m' : Mem ο} {a b hp : Nat} {p q : Ptr} {f g x y : Block} {fs gs A B : Forest}
    {cs es L : List Nat}

/-- The elements of the nodes. -/
def Mem.elems (m : Mem ο) (cs : List Nat) : List (Int × ο) := cs.map fun a => (m.node a).elem

theorem Mem.elems_congr (h : ∀ a ∈ cs, (m'.node a).elem = (m.node a).elem) :
    m'.elems cs = m.elems cs :=
  map_congr_left h

theorem Mem.elems_append : m.elems (cs ++ es) = m.elems cs ++ m.elems es := map_append

theorem Mem.elems_perm (h : cs.Perm es) : (m.elems cs).Perm (m.elems es) := h.map _

theorem Mem.elems_within {S : List Nat} (h : Pool.Within Node.elem S m m') :
    m'.elems cs = m.elems cs :=
  elems_congr fun a _ => h.read a

/-! ## The least key -/

theorem ends_minKeyFrom {hs ds : List Nat} (h : LeftPath m p hs ds) (hp : m.left a = p) (k : Int) :
    ∃ k', Ends (minKeyFrom m · a k) k' ∧ k' ≤ k ∧ (k' = k ∨ ∃ b ∈ ds, (m.node b).key = k') ∧
      ∀ b ∈ ds, k' ≤ (m.node b).key := by
  induction h generalizing a k with
  | nil => exact ⟨k, .of_succ fun _ => by rw [minKeyFrom, hp], Int.le_refl k, .inl rfl, nofun⟩
  | @cons c h hs cs ds _ _ _ least _ _ ih =>
    obtain ⟨k', hends, hle, hmem, hall⟩ := ih rfl (if (m.node c).key < k then (m.node c).key else k)
    have hc : k' ≤ (m.node c).key ∧ k' ≤ k := by split at hle <;> omega
    refine ⟨k', hends.step fun fuel => by rw [minKeyFrom, hp], hc.2, ?_,
      forall_mem_cons.2 ⟨hc.1, ?_⟩⟩
    · rcases hmem with rfl | ⟨b, hb, hk⟩
      · split
        · exact .inr ⟨c, mem_cons_self, rfl⟩
        · exact .inl rfl
      · exact .inr ⟨b, mem_cons_of_mem _ (mem_append_right _ hb), hk⟩
    · exact forall_mem_append.2 ⟨fun b hb => Int.le_trans hc.1 (least b hb), hall⟩

theorem Rooted.ends_findMinKey (h : Rooted m hp cs) : ∃ k, Ends (findMinKey · m hp) k ∧
    (∃ b ∈ cs, (m.node b).key = k) ∧ ∀ b ∈ cs, k ≤ (m.node b).key := by
  obtain ⟨hs, hpath, -⟩ := h
  cases hpath with
  | cons _ _ _ least left =>
    obtain ⟨k, hends, hle, hmem, hall⟩ := ends_minKeyFrom left rfl (m.node hp).key
    refine ⟨k, hends, ?_, forall_mem_cons.2 ⟨hle, ?_⟩⟩
    · rcases hmem with rfl | ⟨b, hb, hk⟩
      · exact ⟨hp, mem_cons_self, rfl⟩
      · exact ⟨b, mem_cons_of_mem _ (mem_append_right _ hb), hk⟩
    · exact forall_mem_append.2 ⟨fun b hb => Int.le_trans hle (least b hb), hall⟩

/-- No key is smaller than all keys of the left path. -/
theorem Spread.le_key {k : Int} (h : Spread m p fs) (hle : ∀ a ∈ tops fs, k ≤ (m.node a).key) :
    ∀ a ∈ cells fs, k ≤ (m.node a).key := by
  intro a ha
  obtain ⟨f, hf, ha⟩ := mem_flatMap.1 ha
  have htop := hle f.top (mem_map_of_mem hf)
  rcases mem_cons.1 ha with rfl | ha
  · exact htop
  · exact Int.le_trans htop ((h.block f hf).least a ha)

/-- Among the nodes `T` the first one with the least key is `min1`; it is `hp`, or `min2` is the
node before it. -/
structure MinAt (m : Mem ο) (hp : Nat) (T : List Nat) (min1 min2 : Nat) : Prop where
  least : ∀ a ∈ T, (m.node min1).key ≤ (m.node a).key
  place : min1 = hp ∧ min2 = hp ∨ ∃ T1 T2, T = T1 ++ min2 :: min1 :: T2

theorem ends_seekMin {T T' : List Nat} {min1 min2 : Nat} (hpath : Path m.left (m.left a) T' none)
    (hmin : MinAt m hp (T ++ [a]) min1 min2) :
      ∃ min1' min2', Ends (seekMin m · a (m.node min1).key min1 min2) (min1', min2') ∧
      MinAt m hp (T ++ a :: T') min1' min2' := by
  induction T' generalizing T a min1 min2 with
  | nil =>
    have hleft : m.left a = none := hpath
    exact ⟨min1, min2, .of_succ fun _ => by rw [seekMin, hleft], hmin⟩
  | cons c T' ih =>
    obtain ⟨hleft, hpath⟩ := hpath
    by_cases hlt : (m.node c).key < (m.node min1).key
    · have hmin' : MinAt m hp (T ++ [a] ++ [c]) c a := by
        refine ⟨fun b hb => ?_, .inr ⟨T, [], by simp⟩⟩
        rcases mem_append.1 hb with hb | hb
        · exact Int.le_trans (Int.le_of_lt hlt) (hmin.least b hb)
        · rw [mem_singleton.1 hb]
      obtain ⟨min1', min2', hends, hmin''⟩ := ih hpath hmin'
      refine ⟨min1', min2', hends.step fun fuel => by rw [seekMin, hleft]; simp only [if_pos hlt],
        ?_⟩
      rwa [append_assoc] at hmin''
    · have hmin' : MinAt m hp (T ++ [a] ++ [c]) min1 min2 := by
        refine ⟨fun b hb => ?_, hmin.place.imp_right ?_⟩
        · rcases mem_append.1 hb with hb | hb
          · exact hmin.least b hb
          · rw [mem_singleton.1 hb]
            exact Int.not_lt.1 hlt
        · rintro ⟨T1, T2, hT⟩
          exact ⟨T1, T2 ++ [c], by rw [hT]; simp⟩
      obtain ⟨min1', min2', hends, hmin''⟩ := ih hpath hmin'
      refine ⟨min1', min2', hends.step fun fuel => by rw [seekMin, hleft]; simp only [if_neg hlt],
        ?_⟩
      rwa [append_assoc] at hmin''

/-! ## The first node moves -/

section

variable (h : Rooted m a cs)
include h

theorem Rooted.frame (heq : ∀ b ∈ cs, m'.node b = m.node b) : Rooted m' a cs := by
  obtain ⟨hs, hpath, hsorted⟩ := h
  exact ⟨hs, hpath.frame heq, hsorted⟩

theorem Rooted.eq_cons : cs = a :: cs.tail := by
  obtain ⟨hs, hpath, -⟩ := h
  cases hpath
  rfl

theorem Rooted.copy (hb : b ∉ cs) : Rooted (m.copy b a) b (b :: cs.tail) := by
  obtain ⟨f, fs, hfs, hsorted, rfl⟩ := rooted_iff.1 h
  rw [rooted_iff]
  exact ⟨{ f with top := b }, fs, hfs.copy hb, hsorted, by simp⟩

theorem Rooted.elems_copy (hb : b ∉ cs) : (m.copy b a).elems (b :: cs.tail) = m.elems cs := by
  have hcs := h.eq_cons
  rw [hcs] at hb ⊢
  rw [tail_cons, Mem.elems, Mem.elems, map_cons, map_cons]
  refine congrArg₂ List.cons ?_ (Mem.elems_congr fun c hc => ?_)
  · exact congrArg Node.elem Pool.node_modify_self
  · exact congrArg Node.elem (Pool.node_modify_ne fun heq => hb (mem_cons_of_mem _ (heq ▸ hc)))

end

/-- The heap `hp` has the elements `E` now, and the nodes `L` of the other heaps are as before. -/
def Becomes (m : Mem ο) (L : List Nat) (hp : Nat) (E : List (Int × ο)) (m' : Mem ο) : Prop :=
  ∃ cs, Rooted m' hp cs ∧ m.Beside L cs m' ∧ E.Perm (m'.elems cs)

section

variable {m1 : Mem ο} {E E' : List (Int × ο)} {ds : List Nat}

theorem Becomes.perm (h : Becomes m L hp E m') (hE : E'.Perm E) : Becomes m L hp E' m' := by
  obtain ⟨cs, hroot, hb, helems⟩ := h
  exact ⟨cs, hroot, hb, hE.trans helems⟩

/-- A node that is in no heap is given back. -/
theorem Rooted.returnNode (h : Rooted m' hp cs) (hb : m.Beside L (a :: cs) m') :
    Becomes m L hp (m'.elems cs) (m'.returnNode a) := by
  have hsame : ∀ b ∈ cs, (m'.returnNode a).node b = m'.node b := fun b hmem =>
    Pool.node_returnNode_ne fun heq => (nodup_cons.1 hb.nodup).1 (heq ▸ hmem)
  refine ⟨cs, h.frame hsame, hb.returnNode, ?_⟩
  rw [Mem.elems_congr fun b hb => congrArg Node.elem (hsame b hb)]

theorem Rooted.copyBack (h : Rooted m' a cs) (hb : m.Beside L (hp :: cs) m') :
    Becomes m L hp (m'.elems cs) (copyBack m' hp a) := by
  have hhp := (nodup_cons.1 hb.nodup).1
  have hmod : m.Beside L (hp :: cs) (m'.copy hp a) := hb.modify mem_cons_self _
  rw [← h.elems_copy hhp]
  rw [h.eq_cons] at hmod
  exact (h.copy hhp).returnNode (hmod.perm (.swap ..))

/-- Two heaps are merged into the heap `hp`. -/
theorem Rooted.mergeBack (h1 : Rooted m' a cs) (h2 : Rooted m' b ds)
    (hb : m.Beside L (hp :: (cs ++ ds)) m') (hlen : cs.length + ds.length ≤ maxElems) :
      ∃ c m'', Ends (BinoHeap.merge · m' a b) (c, m'') ∧
        Becomes m L hp (m'.elems (cs ++ ds)) (BinoHeap.copyBack m'' hp c) := by
  obtain ⟨c, m'', es, hmerge, hroot, hes, hwithin⟩ := h1.merge h2 (nodup_cons.1 hb.nodup).2 hlen
  have hb' : m.Beside L (hp :: es) m'' :=
    (hb.within hwithin fun _ => mem_cons_of_mem hp).perm (hes.symm.cons hp)
  refine ⟨c, m'', hmerge, (hroot.copyBack hb').perm ?_⟩
  rw [Mem.elems_within hwithin]
  exact Mem.elems_perm hes.symm

/-- The contents of `hp` move to the node `a`, and `hp` becomes free. -/
theorem Rooted.moved (h : Rooted m' hp cs) (hb : m.Beside L (a :: (ds ++ cs)) m') :
    ∃ cs', Rooted (m'.copy a hp) a cs' ∧ m.Beside L (hp :: (ds ++ cs')) (m'.copy a hp) ∧
      (m'.copy a hp).elems cs' = m'.elems cs ∧ cs'.length = cs.length ∧
      ∀ b ∈ ds, (m'.copy a hp).node b = m'.node b := by
  obtain ⟨t, rfl⟩ : ∃ t, cs = hp :: t := ⟨_, h.eq_cons⟩
  have ha := (nodup_cons.1 hb.nodup).1
  have hnot : a ∉ hp :: t := fun hmem => ha (mem_append_right _ hmem)
  refine ⟨a :: t, h.copy hnot, (hb.modify mem_cons_self _).perm ?_, h.elems_copy hnot, rfl,
    fun b hmem => ?_⟩
  · exact (perm_middle.cons a).trans ((Perm.swap ..).trans (perm_middle.symm.cons hp))
  · exact Pool.node_modify_ne fun heq => ha (mem_append_left _ (heq ▸ hmem))

end

/-! ## Deletion -/

/-- The heap has lost the element of the node `c`. -/
def Without (m : Mem ο) (cs L : List Nat) (hp c : Nat) (m' : Mem ο) : Prop :=
  ∃ E, Becomes m L hp E m' ∧ ((m.node c).elem :: E).Perm (m.elems cs)

/-- What is below a block is a heap. -/
theorem Block.Lies.rooted (hf : f.Lies m) (hpos : 0 < f.height) :
    ∃ r, (m.node f.top).right = some r ∧ Rooted m r f.below := by
  obtain ⟨h, hh⟩ := Nat.exists_eq_add_one_of_ne_zero (Nat.ne_of_gt hpos)
  have hright := hf.right
  have hsorted : (List.range f.height).reverse.Pairwise (· > ·) :=
    pairwise_reverse.2 pairwise_lt_range
  cases hr : (m.node f.top).right with
  | none =>
    rw [hr, hh, range_succ, reverse_concat] at hright
    cases hright
  | some r => exact ⟨r, rfl, _, hr ▸ hright, hsorted⟩

/-- The least key is the one of `hp`. -/
theorem ends_deleteMin_root (h : Spread m (some hp) (f :: fs))
    (hsorted : (heights (f :: fs)).Pairwise (· > ·)) (hholds : Pool.Holds m (cells (f :: fs) ++ L))
    (hlen : (cells (f :: fs)).length ≤ maxElems) (hpos : 0 < f.height)
    (hseek : Ends (seekMin m · hp (m.node hp).key hp hp) (hp, hp)) :
    ∃ m', Ends (deleteMin · m hp) ((m.node hp).object, m') ∧
      Without m (cells (f :: fs)) L hp hp m' := by
  obtain ⟨rfl, hf, hfs⟩ := h.of_cons
  obtain ⟨r, hr, hroot⟩ := hf.rooted hpos
  have hheight : (m.node f.top).height ≠ 0 := by
    rw [hf.height]
    omega
  rw [cells_cons] at hholds hlen ⊢
  simp only [deleteMin, if_neg hheight]
  cases fs with
  | nil =>
    have hleft : (m.node f.top).left = none := hfs.path
    simp only [cells_nil, append_nil] at hholds ⊢
    refine ⟨copyBack m f.top r, hseek.bind (.of_eq fun fuel => ?_), _,
      hroot.copyBack (.refl hholds), .rfl⟩
    simp [hleft, hr]
  | cons g gs =>
    have hleft : (m.node f.top).left = some g.top := hfs.path.1
    have hrest : Rooted m g.top (cells (g :: gs)) := by
      rw [Mem.left, hleft] at hfs
      exact ⟨_, hfs.leftPath, (pairwise_cons.1 hsorted).2⟩
    have hcomm : (cells (g :: gs) ++ f.below).Perm (f.below ++ cells (g :: gs)) := perm_append_comm
    obtain ⟨c, m', hmerge, hb⟩ :=
      hrest.mergeBack hroot ((Pool.Beside.refl hholds).perm (hcomm.symm.cons _))
      (by simp only [length_cons, length_append] at hlen; omega)
    refine ⟨copyBack m' f.top c, hseek.bind ?_, _, hb, Mem.elems_perm (hcomm.cons f.top)⟩
    simp only [ne_eq, not_true_eq_false, if_false, hleft, hr]
    exact hmerge.bind (.of_eq fun _ => rfl)

/-- A block is taken off the path. -/
theorem Spread.unlink (h : Spread m p (A ++ x :: y :: B))
    (hnodup : (cells (A ++ x :: y :: B)).Nodup) :
    Spread (m.setLeft x.top (m.node y.top).left) p (A ++ x :: B) ∧
      y.Lies (m.setLeft x.top (m.node y.top).left) := by
  have hblock : ∀ f ∈ A ++ x :: y :: B, f.Lies (m.setLeft x.top (m.node y.top).left) := fun f hf =>
    (h.block f hf).setLeft (top_not_below hnodup (by simp) hf) _
  refine ⟨⟨?_, fun f hf => hblock f ?_⟩, hblock y (by simp)⟩
  · have hpath := h.path
    have htops := hnodup.sublist (tops_sublist _)
    rw [tops_append, tops_cons, tops_cons] at hpath htops
    rw [append_cons] at hpath
    rw [tops_append, tops_cons, append_cons]
    have hx := (nodup_cons.1 (nodup_middle.1 htops)).1
    have hleft : (m.setLeft x.top (m.node y.top).left).left x.top = m.left y.top := by
      rw [Mem.left, Mem.setLeft, Pool.node_modify_self, Mem.left]
    refine hpath.unlink (fun a ha => ?_) hleft
    have hne : a ≠ x.top := by
      rintro rfl
      exact hx (((sublist_cons_self ..).append_left _).subset ha)
    exact congrArg Node.left (Pool.node_modify_ne hne)
  · exact (((sublist_cons_self y B).cons_cons x).append_left A).subset hf

/-- The least key is the one of a node behind `hp`. -/
theorem ends_deleteMin_below (h : Spread m (some hp) (A ++ x :: y :: B))
    (hsorted : (heights (A ++ x :: y :: B)).Pairwise (· > ·))
    (hholds : Pool.Holds m (cells (A ++ x :: y :: B) ++ L))
    (hlen : (cells (A ++ x :: y :: B)).length ≤ maxElems) (hheight : (m.node hp).height ≠ 0)
    (hseek : Ends (seekMin m · hp (m.node hp).key hp hp) (y.top, x.top)) :
    ∃ m', Ends (deleteMin · m hp) ((m.node y.top).object, m') ∧
      Without m (cells (A ++ x :: y :: B)) L hp y.top m' := by
  have hb := Pool.Beside.refl hholds
  obtain ⟨hspread, hy⟩ := h.unlink hb.nodup
  have hsorted' : (heights (A ++ x :: B)).Pairwise (· > ·) :=
    hsorted.sublist ((((sublist_cons_self y B).cons_cons x).append_left A).map _)
  have hne : y.top ≠ x.top := by
    have htops := hb.nodup.sublist (tops_sublist _)
    rw [tops_append, tops_cons, tops_cons] at htops
    exact fun heq => (nodup_cons.1 (nodup_append.1 htops).2.1).1 (by simp [heq])
  have hperm : (y.top :: (y.below ++ cells (A ++ x :: B))).Perm (cells (A ++ x :: y :: B)) := by
    have hmiddle : (A ++ x :: y :: B).Perm (y :: (A ++ x :: B)) := by
      rw [append_cons, append_cons A x B]
      exact perm_middle
    rw [← cells_cons]
    exact hmiddle.symm.flatMap_right _
  obtain ⟨m1, hm1⟩ : ∃ m1, m.setLeft x.top (m.node y.top).left = m1 := ⟨_, rfl⟩
  have hread : ∀ {cs}, m1.elems cs = m.elems cs :=
    hm1 ▸ Mem.elems_congr fun _ _ => Pool.read_modify Node.elem rfl _
  have hb1 : m.Beside L (y.top :: (y.below ++ cells (A ++ x :: B))) m1 :=
    hm1 ▸ (hb.modify (by simp) _).perm hperm.symm
  rw [hm1] at hspread hy
  have hroot : Rooted m1 hp (cells (A ++ x :: B)) := ⟨_, hspread.leftPath, hsorted'⟩
  simp only [deleteMin, if_neg hheight]
  by_cases hpos : (m1.node y.top).height > 0
  · obtain ⟨r, hr, hbelow⟩ := hy.rooted (by rw [hy.height] at hpos; omega)
    -- what is below the block is merged with the rest, for which its node takes the contents of
    -- `hp`
    obtain ⟨cs, hcopy, hb2, helems, hcs, hsame⟩ := hroot.moved hb1
    have hcomm : (y.below ++ cs).Perm (cs ++ y.below) := perm_append_comm
    obtain ⟨c, m', hmerge, hout⟩ :=
      hcopy.mergeBack (hbelow.frame hsame) (hb2.perm (hcomm.cons hp)) (by
      have := hperm.length_eq
      simp only [length_cons, length_append] at this hlen hcs ⊢
      omega)
    refine ⟨copyBack m' hp c, hseek.bind ?_, _, hout, ?_⟩
    · simp only [if_pos hne, hm1, if_pos hpos, hr]
      exact hmerge.bind (.of_eq fun _ => rfl)
    · rw [Mem.elems_append, helems, Mem.elems_congr fun b hb => congrArg Node.elem (hsame b hb),
        ← Mem.elems_append, hread]
      exact (Mem.elems_perm (perm_append_comm.cons y.top)).trans (Mem.elems_perm hperm)
  · rw [hy.below_nil (by rw [hy.height] at hpos; omega)] at hb1 hperm
    refine ⟨_, hseek.bind (.of_eq fun fuel => ?_), _, hroot.returnNode hb1, ?_⟩
    · simp only [if_pos hne, hm1, if_neg hpos]
    · rw [hread]
      exact Mem.elems_perm hperm

/-- The call on a heap with elements. It loses an element with the least key, or it becomes empty
with its last one. -/
theorem Rooted.ends_deleteMin (h : Rooted m hp cs) (hholds : Pool.Holds m (cs ++ L))
    (hlen : cs.length ≤ maxElems) :
    ∃ c m', Ends (deleteMin · m hp) ((m.node c).object, m') ∧ c ∈ cs ∧
      (∀ b ∈ cs, (m.node c).key ≤ (m.node b).key) ∧ (Without m cs L hp c m' ∨ cs = [hp] ∧ c = hp ∧
        m' = m.setHeight hp (-1)) := by
  obtain ⟨f, fs, hfs, hsorted, rfl⟩ := rooted_iff.1 h
  obtain ⟨htop, hf, hrest⟩ := hfs.of_cons
  by_cases hzero : (m.node hp).height = 0
  · have hheight : f.height = 0 := by
      have := hf.height
      rw [htop] at this
      omega
    have hnil : fs = [] := by
      refine eq_nil_iff_forall_not_mem.2 fun g hg => ?_
      have := (pairwise_cons.1 hsorted).1 g.height (mem_map_of_mem hg)
      omega
    subst hnil
    rw [cells_cons, hf.below_nil hheight, htop]
    exact ⟨hp, _, .of_eq fun _ => if_pos hzero, mem_singleton_self hp, by simp,
      .inr ⟨rfl, rfl, rfl⟩⟩
  · have hstart : MinAt m hp ([] ++ [hp]) hp hp := ⟨by simp, .inl ⟨rfl, rfl⟩⟩
    obtain ⟨min1, min2, hseek, hleast, hplace⟩ := ends_seekMin hrest.path hstart
    have htops : [] ++ hp :: tops fs = tops (f :: fs) := by rw [tops_cons, htop, nil_append]
    rw [htops] at hleast hplace
    have hcells := hfs.le_key hleast
    rcases hplace with ⟨rfl, rfl⟩ | ⟨T1, T2, hT⟩
    · have hpos : 0 < f.height := by
        have := hf.height
        rw [htop] at this
        omega
      obtain ⟨m', hends, hwithout⟩ := ends_deleteMin_root hfs hsorted hholds hlen hpos hseek
      exact ⟨_, m', hends, mem_cells mem_cons_self (by rw [← htop]; exact mem_cons_self), hcells,
        .inl hwithout⟩
    · obtain ⟨A, R, hA, -, hR⟩ := map_eq_append_iff.1 hT
      obtain ⟨x, R', rfl, rfl, hR'⟩ := map_eq_cons_iff.1 hR
      obtain ⟨y, B, rfl, rfl, -⟩ := map_eq_cons_iff.1 hR'
      rw [hA] at hfs hsorted hholds hlen hcells ⊢
      obtain ⟨m', hends, hwithout⟩ := ends_deleteMin_below hfs hsorted hholds hlen hzero hseek
      exact ⟨y.top, m', hends, by simp, hcells, .inl hwithout⟩

end CLangProject.BinoHeap

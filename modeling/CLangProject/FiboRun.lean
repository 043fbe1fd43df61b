import CLangProject.FiboDelete

/-!
# Runs of the Fibonacci heap

Several heaps share the pool of nodes. What the functions are for is said by
`Step`, on heaps that are lists of elements; `Correct` compares a run of the code
with it, call by call.

The code keeps up with `Step` as long as no `decrease_key` needs a cut (`NoCut`).
It sets `r_up` of a node to `NULL` in the cut and to nothing else, so a node below
another one is not found to be there: with a key that is too small for its place it
stays where it is.
-/

namespace CLangProject.FiboHeap

open Forest List Option

variable {ο : Type} {m m' : Mem ο} {hp : Nat} {fs : Forest} {rest : List Nat}

/-! ## `insert` and `merge` -/

theorem block_single {n : Nat} (hright : (m.node n).right = none) (hrank : (m.node n).rank = 0) :
    Block m (n, .nil) :=
  ⟨hright, by simp [Bin.cells], 0, by simp [hrank], rfl⟩

variable {p : Ptr} {b : Nat}

/-- Link two paths, forwards and backwards. -/
theorem Spread.link {e : Ptr} {f g : Nat × Bin} {gs : Forest}
    (hpath : Path m.left p (tops (fs ++ [f])) e) (hblock : ∀ x ∈ fs ++ [f], Block m x)
    (hgs : Spread m (some g.1) (g :: gs)) (hnodup : (cells (fs ++ [f] ++ g :: gs)).Nodup)
    (hfups : (tops (fs ++ [f])).IsChain fun a b => (m.node b).up = some a)
    (hgups : (tops (g :: gs)).IsChain fun a b => (m.node b).up = some a) :
    Spread ((m.setLeft f.1 (some g.1)).setUp g.1 (some f.1)) p (fs ++ [f] ++ g :: gs) ∧
      (tops (fs ++ [f] ++ g :: gs)).IsChain fun a b =>
        (((m.setLeft f.1 (some g.1)).setUp g.1 (some f.1)).node b).up = some a := by
  refine ⟨(Spread.join hpath hblock hgs hnodup).setUp _ _, ?_⟩
  have htops := hnodup.sublist (tops_sublist _)
  rw [tops_append] at htops ⊢
  obtain ⟨-, hg, hdisj⟩ := nodup_append.1 htops
  rw [tops_cons] at hg
  have hup : ∀ a b, b ≠ g.1 → (m.node b).up = some a →
      (((m.setLeft f.1 (some g.1)).setUp g.1 (some f.1)).node b).up = some a := by
    intro a b hb h
    rw [Mem.node_setUp_ne hb, Mem.read_setLeft.2.1, h]
  refine isChain_append.2 ⟨?_, ?_, ?_⟩
  · refine hfups.imp_of_mem_imp fun a b _ hb h => hup a b ?_ h
    rintro rfl
    exact hdisj _ hb _ mem_cons_self rfl
  · rw [tops_cons] at hgups ⊢
    refine hgups.imp_of_mem_tail_imp fun a b _ hb h => hup a b ?_ h
    rintro rfl
    exact (nodup_cons.1 hg).1 hb
  · intro a ha b hb
    simp only [tops_append, tops_cons, tops_nil, List.getLast?_append, List.getLast?_singleton,
      some_or, mem_def, some.injEq, List.head?_cons] at ha hb
    subst ha hb
    exact Mem.up_setUp_self

/-- A path becomes a heap by what is written into the header. -/
theorem Heap.header (hs : Spread m p fs) (hnodup : (hp :: cells fs).Nodup)
    (hups : (tops fs).IsChain fun a b => (m.node b).up = some a)
    (hsame : ∀ a, a ≠ hp → m'.node a = m.node a) (hright : (m'.node hp).right = p)
    (hmin : ∃ a ∈ tops fs, (m'.node hp).left = some a ∧ ∀ b ∈ tops fs, (m.node a).key ≤
      (m.node b).key)
    (hlast : ∀ a ∈ (tops fs).getLast?, (m'.node hp).up = some a) : Heap m' hp fs := by
  have hcells : ∀ a ∈ cells fs, m'.node a = m.node a := fun a ha => hsame a fun heq =>
    (nodup_cons.1 hnodup).1 (heq ▸ ha)
  have htops : ∀ a ∈ tops fs, m'.node a = m.node a :=
    fun a ha => hcells a (mem_cells_of_mem_tops ha)
  refine ⟨hright ▸ hs.frame hcells, hnodup, ?_, fun _ => ?_, hlast⟩
  · refine hups.imp_of_mem_imp fun a b _ hb hup => ?_
    rw [htops b hb, hup]
  · obtain ⟨a, ha, hleft, hleast⟩ := hmin
    refine ⟨a, ha, hleft, fun b hb => ?_⟩
    rw [htops a ha, htops b hb]
    exact hleast b hb

/-- `b` has been compared with the minimum `a`, and the smaller one is written into the header. -/
theorem Heap.newMin {a : Nat} {P : Prop} [Decidable P] (hs : Spread m p fs)
    (hnodup : (hp :: cells fs).Nodup) (hups : (tops fs).IsChain fun a b => (m.node b).up = some a)
    (hsame : ∀ a, a ≠ hp → m'.node a = m.node a) (hright : (m'.node hp).right = p)
    (hlast : ∀ a ∈ (tops fs).getLast?, (m'.node hp).up = some a)
    (hleft : (m'.node hp).left = some a) (ha : a ∈ tops fs) (hb : P → b ∈ tops fs)
    (hP : P ↔ (m.node b).key < (m.node a).key)
    (hle : ∀ c ∈ tops fs, (m.node a).key ≤ (m.node c).key ∨ (m.node b).key ≤ (m.node c).key) :
    Heap (if P then m'.setLeft hp (some b) else m') hp fs := by
  by_cases h : P
  · rw [if_pos h]
    refine .header hs hnodup hups (fun c hc => ?_) ?_ ⟨b, hb h, Mem.left_setLeft_self, fun c hc =>
      ?_⟩ fun c hc => ?_
    · rw [Mem.node_setLeft_ne hc, hsame c hc]
    · rw [Mem.read_setLeft.1, hright]
    · have := hP.1 h
      rcases hle c hc <;> omega
    · rw [Mem.read_setLeft.2.1, hlast c hc]
  · rw [if_neg h]
    refine .header hs hnodup hups hsame hright ⟨a, ha, hleft, fun c hc => ?_⟩ hlast
    have := mt hP.2 h
    rcases hle c hc <;> omega

theorem insert_ok (newKey : Int) (newObj : ο) (h : Heap m hp fs)
    (hown : m.Holds (hp :: cells fs ++ rest)) :
    ∃ m' n, insert newKey newObj m hp = some (m', n) ∧ (m'.node n).elem = (newKey, newObj) ∧
      Becomes m m' hp ((n, .nil) :: fs) rest (cells fs) := by
  obtain ⟨n, m0, hget⟩ : ∃ n m0, m.getNode = (n, m0) := ⟨_, _, rfl⟩
  have hb0 := (Pool.Beside.refl hown).getNode
  have hnode0 := Pool.node_getNode (P := m)
  rw [show Pool.getNode m = (n, m0) from hget] at hb0 hnode0
  have hfresh := (nodup_cons.1 hb0.nodup).1
  have hne : hp ≠ n := fun heq => hfresh (heq ▸ mem_cons_self)
  set m1 : Mem ο := m0.modify n fun c =>
    { c with right := none, key := newKey, object := newObj, rank := 0, state := .complete }
    with hm1
  have hsame : ∀ a ∈ hp :: cells fs, m1.node a = m.node a := fun a ha => by
    rw [← hnode0]
    exact Pool.node_modify_ne fun heq => hfresh (heq ▸ ha)
  have hheap : Heap m1 hp fs := h.frame hsame
  have hblock : Block m1 (n, .nil) := block_single (by simp [hm1]) (by simp [hm1])
  have hb1 : m.Beside rest (hp :: cells ((n, .nil) :: fs)) m1 :=
    (hb0.modify mem_cons_self _).perm (.swap ..)
  have hnodup := hb1.nodup
  -- All that is left is to link the node.
  suffices hlink : ∃ m', insert newKey newObj m hp = some (m', n) ∧ Heap m' hp ((n, .nil) :: fs) ∧
      Within (hp :: cells ((n, .nil) :: fs)) m1 m' by
    obtain ⟨m', hins, hheap', hwithin⟩ := hlink
    refine ⟨m', n, hins, ?_, hheap', hb1.within hwithin fun _ h => h, fun a ha => ?_⟩
    · rw [hwithin.read]
      simp [hm1, Node.elem]
    · rw [hwithin.read, hsame a (mem_cons_of_mem _ ha)]
  have hn : n ∈ hp :: cells ((n, .nil) :: fs) := by simp
  cases fs with
  | nil =>
    have hright : (m1.node hp).right = none := hheap.spread.path
    refine ⟨(m1.modify hp fun c => { c with right := some n, left := some n, up := some n }).setLeft
      n none, ?_, ?_, ((Within.refl _ m1).modify mem_cons_self rfl).modify hn rfl⟩
    · simp [insert, hget, ← hm1, hright]
    · have hspread : Spread (m1.setLeft n none) (some n) [(n, .nil)] :=
        .cons hblock ⟨rfl, by simp⟩ (nodup_cons.1 hnodup).2
      refine .header hspread hnodup (.singleton _) (fun a ha => ?_) ?_ ⟨n, by simp, ?_, by simp⟩ ?_
      · by_cases han : a = n
        · subst han
          simp [Mem.setLeft, ha]
        · simp [ha, han]
      · simp [hne]
      · simp [hne]
      · simp [hne]
  | cons t fs =>
    have htop : (m1.node hp).right = some t.1 := hheap.spread.path.1
    obtain ⟨mn, hmn, hleft, hleast⟩ := hheap.min (by simp)
    have hspread := hheap.spread
    rw [htop] at hspread
    obtain ⟨hlink, hups⟩ := Spread.link (p := some n) (f := (n, .nil))
      (show Path m1.left (some n) (tops ([] ++ [(n, .nil)])) (m1.left n) from ⟨rfl, rfl⟩)
      (by simpa using hblock) hspread (nodup_cons.1 hnodup).2 (.singleton _) hheap.ups
    rw [nil_append, singleton_append] at hlink hups
    set m2 := (m1.setLeft n (some t.1)).setUp t.1 (some n) with hm2
    have hkey : ∀ a, (m2.node a).key = (m1.node a).key := fun a => by simp [hm2]
    have hnkey : (m1.node n).key = newKey := by simp [hm1]
    have hthp : hp ≠ t.1 := by
      rintro rfl
      exact (nodup_cons.1 hheap.nodup).1 (by simp)
    set m3 := ((m1.setLeft n (some t.1)).setRight hp (some n)).setUp t.1 (some n) with hm3
    have hwithin3 : Within (hp :: cells ((n, .nil) :: t :: fs)) m1 m3 :=
      (((Within.refl _ m1).modify hn rfl).modify mem_cons_self rfl).modify (by simp) rfl
    have hsame3 : ∀ a, a ≠ hp → m3.node a = m2.node a := by
      intro a ha
      by_cases hat : a = t.1
      · subst hat
        simp [hm2, hm3, Mem.setUp, ha]
      · simp [hm2, hm3, hat, ha]
    refine ⟨if (m1.node mn).key > newKey then m3.setLeft hp (some n) else m3, ?_,
      .newMin hlink hnodup hups hsame3 (by simp [hm3]) (by simpa [hm3, hthp] using hheap.last)
        (by simp [hm3, hleft, hne]) (mem_cons_of_mem _ hmn) (by simp) (by rw [hkey, hkey, hnkey])
        fun c hc => ?_,
      hwithin3.ite_setLeft mem_cons_self⟩
    · simp [insert, hget, ← hm1, htop, hleft, hne, hm3]
    · rcases mem_cons.1 hc with rfl | hc
      · exact .inr (Int.le_refl _)
      · rw [hkey, hkey]
        exact .inl (hleast c hc)

theorem Heap.right_eq_none_iff (h : Heap m hp fs) : (m.node hp).right = none ↔ fs = [] := by
  have hpath := h.spread.path
  cases fs with
  | nil =>
    have hnone : (m.node hp).right = none := hpath
    simp [hnone]
  | cons f fs =>
    have htop : (m.node hp).right = some f.1 := hpath.1
    simp [htop]

theorem merge_ok {hp1 hp2 : Nat} {fs1 fs2 : Forest} (h1 : Heap m hp1 fs1) (h2 : Heap m hp2 fs2)
    (hown : m.Holds (hp1 :: cells fs1 ++ (hp2 :: cells fs2 ++ rest))) :
    ∃ m' hp, merge m hp1 hp2 = some (m', hp) ∧ hp ∈ [hp1, hp2] ∧
      Becomes m m' hp (fs1 ++ fs2) rest (cells (fs1 ++ fs2)) := by
  by_cases hfs1 : fs1 = []
  · subst hfs1
    have hright := h1.right_eq_none_iff.2 rfl
    exact ⟨m.returnNode hp1, hp2, by simp [merge, hright], by simp,
      h2.returnNode (.refl (by simpa using hown)) fun _ _ => rfl⟩
  obtain ⟨top1, hright1⟩ := ne_none_iff_exists'.1 (mt h1.right_eq_none_iff.1 hfs1)
  have hb : m.Beside rest (hp2 :: hp1 :: cells (fs1 ++ fs2)) m := by
    refine .refl (hown.perm ?_)
    rw [cells_append, ← append_assoc, cons_append]
    refine (Perm.cons hp1 ?_).trans (.swap ..)
    simp
  by_cases hfs2 : fs2 = []
  · subst hfs2
    have hright2 := h2.right_eq_none_iff.2 rfl
    rw [append_nil] at hb ⊢
    exact ⟨m.returnNode hp2, hp1, by simp [merge, hright1, hright2], by simp,
      h1.returnNode hb fun _ _ => rfl⟩
  obtain ⟨g, gs, rfl⟩ := exists_cons_of_ne_nil hfs2
  obtain ⟨fs, f, rfl⟩ := (eq_nil_or_concat' fs1).resolve_left hfs1
  have hright2 : (m.node hp2).right = some g.1 := h2.spread.path.1
  have hlast1 : (m.node hp1).up = some f.1 := h1.last f.1 (by simp)
  obtain ⟨mn1, hmn1, hleft1, hleast1⟩ := h1.min hfs1
  obtain ⟨mn2, hmn2, hleft2, hleast2⟩ := h2.min hfs2
  obtain ⟨hhp2, hheap1⟩ := nodup_cons.1 hb.nodup
  obtain ⟨hhp1, hcells⟩ := nodup_cons.1 hheap1
  have hspread2 := h2.spread
  rw [hright2] at hspread2
  obtain ⟨hlink, hups⟩ := Spread.link h1.spread.path h1.spread.block hspread2 hcells h1.ups h2.ups
  have hg2 : hp2 ≠ g.1 := fun heq => hhp2 (heq ▸ by simp)
  have hf1 : hp1 ≠ f.1 := fun heq => hhp1 (heq ▸ by simp)
  have hf2 : hp2 ≠ f.1 := fun heq => hhp2 (heq ▸ by simp)
  set S := hp1 :: cells (fs ++ [f] ++ g :: gs) with hS
  set m2 := (m.setLeft f.1 (some g.1)).setUp g.1 (some f.1) with hm2
  have hwithin2 : Within S m m2 := ((Within.refl _ m).modify (a := f.1) (by simp [hS]) rfl).modify
    (by simp [hS]) rfl
  set m3 := m2.setUp hp1 (m.node hp2).up with hm3
  have hwithin4 :
      Within S m (if (m.node mn1).key > (m.node mn2).key then m3.setLeft hp1 (some mn2) else m3) :=
    Within.ite_setLeft (hwithin2.modify mem_cons_self rfl) mem_cons_self
  refine ⟨_, hp1, ?_, by simp,
    Heap.returnNode (.newMin hlink hheap1 hups (fun a ha => Mem.node_setUp_ne ha) ?_
    (fun a ha => ?_) ?_ (a := mn1) (b := mn2) ?_ (fun _ => ?_) ?_ fun c hc => ?_)
    (hb.within hwithin4 fun _ => mem_cons_of_mem hp2) fun a _ => hwithin4.read a⟩
  · simp [merge, hright1, hright2, hlast1, hleft1, hleft2, hg2, hf1, hf2, hm2]
  · simp [hm2]
  · rw [tops_append, List.getLast?_append_of_ne_nil _ (by simp)] at ha
    rw [Mem.up_setUp_self, h2.last a ha]
  · simp [hm2, hf1, hleft1]
  · exact tops_append (fs ++ [f]) _ ▸ mem_append_left _ hmn1
  · exact tops_append (fs ++ [f]) _ ▸ mem_append_right _ hmn2
  · rw [hwithin2.key, hwithin2.key]
  · rw [hwithin2.key, hwithin2.key, hwithin2.key]
    rw [tops_append] at hc
    exact (mem_append.1 hc).imp (hleast1 c) (hleast2 c)

/-! ## `decrease_key` -/

/-- The node can be reached from the pointer. -/
inductive Reaches (m : Mem ο) : Ptr → Nat → Prop where
  | here (a : Nat) : Reaches m (some a) a
  | left {a b : Nat} : Reaches m (m.node a).left b → Reaches m (some a) b
  | right {a b : Nat} : Reaches m (m.node a).right b → Reaches m (some a) b

theorem Lies.reaches_iff {t : Bin} (h : Lies m p t) : Reaches m p b ↔ b ∈ t.cells := by
  induction t generalizing p with
  | nil =>
    obtain rfl : p = none := h
    simp only [Bin.cells, not_mem_nil, iff_false]
    rintro ⟨⟩
  | node a l r ihl ihr =>
    obtain ⟨rfl, hl, hr, -⟩ := h
    simp only [Bin.cells, mem_cons, mem_append]
    constructor
    · intro hreach
      cases hreach with
      | here => exact Or.inl rfl
      | left h => exact Or.inr (Or.inr ((ihl hl).1 h))
      | right h => exact Or.inr (Or.inl ((ihr hr).1 h))
    · rintro (rfl | hb | hb)
      · exact .here b
      · exact .right ((ihr hr).2 hb)
      · exact .left ((ihl hl).2 hb)

theorem Spread.reaches_iff (h : Spread m p fs) : Reaches m p b ↔ b ∈ cells fs := by
  rw [h.lies.reaches_iff, cells_bin]

section Decrease

variable {n : Nat} {newKey : Int}

/-- Only the key of `n` is changed. -/
def Mem.setKey (m : Mem ο) (n : Nat) (newKey : Int) : Mem ο :=
  Pool.modify m n fun c => { c with key := newKey }

theorem Mem.key_setKey (a : Nat) :
    ((m.setKey n newKey).node a).key = if a = n then newKey else (m.node a).key := by
  by_cases ha : a = n
  · simp [Mem.setKey, ha]
  · simp [Mem.setKey, ha]

theorem Mem.left_setKey (a : Nat) : ((m.setKey n newKey).node a).left = (m.node a).left :=
  Pool.read_modify Node.left rfl a

theorem Mem.right_setKey (a : Nat) : ((m.setKey n newKey).node a).right = (m.node a).right :=
  Pool.read_modify Node.right rfl a

theorem Mem.rank_setKey (a : Nat) : ((m.setKey n newKey).node a).rank = (m.node a).rank :=
  Pool.read_modify Node.rank rfl a

theorem Mem.up_setKey (a : Nat) : ((m.setKey n newKey).node a).up = (m.node a).up :=
  Pool.read_modify Node.up rfl a

variable {t : Bin}

/-- A smaller key keeps the order below a node if the key of that node is not
greater. -/
theorem least_setKey {a : Nat} (hle : newKey ≤ (m.node n).key)
    (hleast : ∀ b ∈ t.cells, (m.node a).key ≤ (m.node b).key)
    (habove : n ∈ t.cells → (m.node a).key ≤ newKey) :
    ∀ b ∈ t.cells, ((m.setKey n newKey).node a).key ≤ ((m.setKey n newKey).node b).key := by
  intro b hb
  have hab := hleast b hb
  rw [Mem.key_setKey, Mem.key_setKey]
  split <;> split
  · exact Int.le_refl _
  · rename_i han _
    subst han
    omega
  · rename_i hbn
    exact habove (hbn ▸ hb)
  · exact hab

theorem Lies.setKey {p : Ptr} (h : Lies m p t) (hle : newKey ≤ (m.node n).key)
    (habove : ∀ a ∈ t.cells, Reaches m (m.node a).right n → (m.node a).key ≤ newKey) :
    Lies (m.setKey n newKey) p t := by
  induction t generalizing p with
  | nil => exact h
  | node a l r ihl ihr =>
    obtain ⟨rfl, hl, hr, hleast, hrank⟩ := h
    have ha := habove a mem_cons_self
    rw [Lies, Mem.left_setKey, Mem.right_setKey, Mem.rank_setKey]
    refine ⟨rfl, ihl hl fun b hb => habove b ?_, ihr hr fun b hb => habove b ?_,
      least_setKey hle hleast fun hn => ha (hr.reaches_iff.2 hn), hrank⟩
    · exact mem_cons_of_mem _ (mem_append_right _ hb)
    · exact mem_cons_of_mem _ (mem_append_left _ hb)

theorem Block.setKey {f : Nat × Bin} (h : Block m f) (hle : newKey ≤ (m.node n).key)
    (habove : ∀ a ∈ f.1 :: f.2.cells, Reaches m (m.node a).right n → (m.node a).key ≤ newKey) :
    Block (m.setKey n newKey) f := by
  refine ⟨?_, ?_, ?_⟩
  · rw [Mem.right_setKey]
    exact h.lies.setKey hle fun a ha => habove a (mem_cons_of_mem _ ha)
  · exact least_setKey hle h.least fun hn =>
      habove f.1 mem_cons_self (h.lies.reaches_iff.2 hn)
  · rw [Mem.rank_setKey]
    exact h.rank

/-- A key that fits where the node is. -/
theorem decreaseKey_ok (h : Heap m hp fs) (hn : n ∈ cells fs) (hle : newKey ≤ (m.node n).key)
    (hrUp : (m.node n).rUp = none) (hown : m.Holds (hp :: cells fs ++ rest))
    (habove : ∀ a ∈ cells fs, Reaches m (m.node a).right n → (m.node a).key ≤ newKey) :
    ∃ m', decreaseKey newKey m n hp = some m' ∧ Becomes m m' hp fs rest [] ∧
      (∀ a, (m'.node a).key = if a = n then newKey else (m.node a).key) ∧
      ∀ a, (m'.node a).object = (m.node a).object := by
  have hne : n ≠ hp := fun heq => (nodup_cons.1 h.nodup).1 (heq ▸ hn)
  obtain ⟨mn, hmn, hleft, hleast⟩ := h.min (by
    rintro rfl
    simp at hn)
  obtain ⟨m1, hm1⟩ : ∃ m1, m.setKey n newKey = m1 := ⟨_, rfl⟩
  have hspread : Spread m1 (m.node hp).right fs := by
    refine hm1 ▸ ⟨h.spread.path.congr fun a _ => Mem.left_setKey a, fun f hf => ?_⟩
    exact (h.spread.block f hf).setKey hle fun a ha => habove a (mem_cells hf ha)
  have hkey : ∀ a, (m1.node a).key = if a = n then newKey else (m.node a).key :=
    hm1 ▸ Mem.key_setKey
  have hup : ∀ a, (m1.node a).up = (m.node a).up := hm1 ▸ Mem.up_setKey
  have hleft' : (m1.node hp).left = some mn := hm1 ▸ (Mem.left_setKey hp).trans hleft
  have hwithin :
      Within [hp] m1 (if newKey < (m1.node mn).key then m1.setLeft hp (some n) else m1) :=
    (Within.refl _ m1).ite_setLeft (mem_singleton_self hp)
  refine ⟨_, ?_, ⟨.newMin hspread h.nodup (h.ups.imp fun a b hb => (hup b).trans hb)
    (fun _ _ => rfl) (hm1 ▸ Mem.right_setKey hp) (fun a ha => (hup hp).trans (h.last a ha)) hleft'
    hmn (fun hlt => ?_) ?_ fun c hc => ?_, ?_, by simp⟩, fun a => (hwithin.key a).trans (hkey a),
    fun a => ?_⟩
  · have hbind : decreaseKey newKey m n hp = (m1.node hp).left.bind fun min =>
        cut hp ((if newKey < (m1.node min).key then m1.setLeft hp (some n) else m1).next + 1) n
          (if newKey < (m1.node min).key then m1.setLeft hp (some n) else m1) := hm1 ▸ rfl
    rw [hbind, hleft', bind_some, cut, hwithin.same n (by simpa using hne), ← hm1,
      show ((m.setKey n newKey).node n).rUp = none from (Pool.read_modify Node.rUp rfl n).trans
        hrUp]
  · -- A node that is smaller than the minimum has nothing above it.
    obtain ⟨f, hf, hmem⟩ := mem_flatMap.1 hn
    have hftop : f.1 ∈ tops fs := mem_tops.2 ⟨f.2, hf⟩
    rcases mem_cons.1 hmem with rfl | hbelow
    · exact hftop
    · have habove :=
        habove f.1 (mem_cells hf mem_cons_self) ((h.spread.block f hf).lies.reaches_iff.2 hbelow)
      have := hleast f.1 hftop
      rw [hkey] at hlt
      split at hlt <;> omega
  · rw [hkey n, if_pos rfl]
  · have := hleast c hc
    rw [hkey n, if_pos rfl, hkey, hkey]
    by_cases hmnn : mn = n
    · subst hmnn
      split <;> split <;> omega
    · split <;> split <;> omega
  · have hb : m.Beside rest (hp :: cells fs) m1 :=
      hm1 ▸ (Pool.Beside.refl hown).modify (mem_cons_of_mem hp hn) _
    exact hb.within hwithin (by simp)
  · exact (congrArg Prod.snd (hwithin.read a)).trans (hm1 ▸ Pool.read_modify Node.object rfl a)

end Decrease

/-! ## The heaps as lists of elements -/

structure Elem (ο : Type) where
  node : Nat
  key : Int
  object : ο
  deriving DecidableEq

/-- The heaps, each with its elements. -/
abbrev Heaps (ο : Type) := List (Nat × List (Elem ο))

inductive Call (ο : Type) where
  | create
  | insert (newKey : Int) (newObj : ο) (hp : Nat)
  | decreaseKey (newKey : Int) (n hp : Nat)
  | merge (hp1 hp2 : Nat)
  | deleteMin (hp : Nat)

inductive Answer (ο : Type) where
  | node (a : Nat)
  | done
  | object (o : Option ο)
  deriving DecidableEq

def exec (m : Mem ο) : Call ο → Option (Mem ο × Answer ο)
  | .create => some ((createHeap m).1, .node (createHeap m).2)
  | .insert newKey newObj hp => (insert newKey newObj m hp).map fun r => (r.1, .node r.2)
  | .decreaseKey newKey n hp => (decreaseKey newKey m n hp).map fun m => (m, .done)
  | .merge hp1 hp2 => (merge m hp1 hp2).map fun r => (r.1, .node r.2)
  | .deleteMin hp => (deleteMin m hp).map fun r => (r.1, .object r.2)

/-- What a call may be made on: heaps, and a node that is in the heap with a key
that is not smaller than the new one. -/
def Allowed (s : Heaps ο) : Call ο → Prop
  | .create => True
  | .insert _ _ hp => ∃ l, (hp, l) ∈ s
  | .decreaseKey newKey n hp => ∃ l, (hp, l) ∈ s ∧ ∃ e ∈ l, e.node = n ∧ newKey ≤ e.key
  | .merge hp1 hp2 => hp1 ≠ hp2 ∧ (∃ l, (hp1, l) ∈ s) ∧ ∃ l, (hp2, l) ∈ s
  | .deleteMin hp => ∃ l, (hp, l) ∈ s

/-- What a call is for. -/
inductive Step : Heaps ο → Call ο → Answer ο → Heaps ο → Prop where
  | create {s : Heaps ο} (hp : Nat) : Step s .create (.node hp) ((hp, []) :: s)
  | insert {s r : Heaps ο} {hp : Nat} {l : List (Elem ο)} {newKey : Int} {newObj : ο} (n : Nat)
      (h : s.Perm ((hp, l) :: r)) :
      Step s (.insert newKey newObj hp) (.node n) ((hp, ⟨n, newKey, newObj⟩ :: l) :: r)
  | decreaseKey {s r : Heaps ο} {hp n : Nat} {l es : List (Elem ο)} {oldKey newKey : Int} {o : ο}
      (h : s.Perm ((hp, l) :: r)) (hl : l.Perm (⟨n, oldKey, o⟩ :: es)) :
      Step s (.decreaseKey newKey n hp) .done ((hp, ⟨n, newKey, o⟩ :: es) :: r)
  | merge {s r : Heaps ο} {hp1 hp2 hp : Nat} {l1 l2 : List (Elem ο)}
      (h : s.Perm ((hp1, l1) :: (hp2, l2) :: r)) (hhp : hp ∈ [hp1, hp2]) :
      Step s (.merge hp1 hp2) (.node hp) ((hp, l1 ++ l2) :: r)
  | deleteNone {s r : Heaps ο} {hp : Nat} (h : s.Perm ((hp, []) :: r)) :
      Step s (.deleteMin hp) (.object none) s
  | deleteMin {s r : Heaps ο} {hp : Nat} {l es : List (Elem ο)} {e : Elem ο}
      (h : s.Perm ((hp, l) :: r)) (hl : l.Perm (e :: es)) (hmin : ∀ x ∈ es, e.key ≤ x.key) :
      Step s (.deleteMin hp) (.object (some e.object)) ((hp, es) :: r)

/-- The memory holds the heaps: the nodes that can be reached in a heap are those of
its elements, with their keys and objects, and no two elements share a node. -/
structure Shows (m : Mem ο) (s : Heaps ο) : Prop where
  nodup : (s.flatMap fun h => h.1 :: h.2.map Elem.node).Nodup
  reaches : ∀ h ∈ s, ∀ a, Reaches m (m.node h.1).right a ↔ a ∈ h.2.map Elem.node
  content : ∀ h ∈ s, ∀ e ∈ h.2, (m.node e.node).key = e.key ∧ (m.node e.node).object = e.object

/-- Every call of the run does what it is for, as long as the calls are allowed and
meet the condition `C`. -/
def Correct (C : Mem ο → Heaps ο → Call ο → Prop) : Mem ο → Heaps ο → List (Call ο) → Prop
  | m, s, [] => Shows m s
  | m, s, c :: cs => Shows m s ∧ (Allowed s c → C m s c →
      ∃ m' ans s', exec m c = some (m', ans) ∧ Step s c ans s' ∧ Correct C m' s' cs)

/-- No cut is needed: `r_up` of the node is `NULL`, and no element above it has a
greater key than the new one. A `delete_min` is made on fewer than `2 ^ 100`
elements, so that the length of `rank_class` is enough. -/
def NoCut (m : Mem ο) (s : Heaps ο) : Call ο → Prop
  | .decreaseKey newKey n hp => (m.node n).rUp = none ∧ ∀ l, (hp, l) ∈ s → ∀ e ∈ l,
      Reaches m (m.node e.node).right n → e.key ≤ newKey
  | .deleteMin hp => ∀ l, (hp, l) ∈ s → l.length < 2 ^ 100
  | _ => True

/-! ## All heaps in one memory -/

/-- The nodes of a heap. -/
def foot (h : Nat × List (Elem ο)) : List Nat := h.1 :: h.2.map Elem.node

/-- The memory holds the heap. -/
def Rep (m : Mem ο) (h : Nat × List (Elem ο)) : Prop :=
  ∃ fs, Heap m h.1 fs ∧ (h.2.map Elem.node).Perm (cells fs) ∧
    ∀ e ∈ h.2, (m.node e.node).key = e.key ∧ (m.node e.node).object = e.object

theorem Rep.frame (h : Nat × List (Elem ο)) (hrep : Rep m h)
    (heq : ∀ a ∈ foot h, m'.node a = m.node a) : Rep m' h := by
  obtain ⟨fs, hheap, hperm, hcontent⟩ := hrep
  refine ⟨fs, hheap.frame fun a ha => heq a ((hperm.cons _).mem_iff.2 ha), hperm, fun e he => ?_⟩
  rw [heq e.node (mem_cons_of_mem _ (mem_map_of_mem he))]
  exact hcontent e he

abbrev World (m : Mem ο) (s : Heaps ο) : Prop := Pool.World foot Rep m s

variable {s s' : Heaps ο} {c : Call ο} {ans : Answer ο} {cs : List (Call ο)}
  {C : Mem ο → Heaps ο → Call ο → Prop}

theorem World.shows (h : World m s) : Shows m s where
  nodup := h.holds.nodup_owned
  reaches x hx a := by
    obtain ⟨fs, hheap, hperm, -⟩ := h.rep x hx
    rw [hheap.spread.reaches_iff, hperm.mem_iff]
  content x hx := by
    obtain ⟨fs, -, -, hcontent⟩ := h.rep x hx
    exact hcontent

section Steps

variable {s r : Heaps ο} {l : List (Elem ο)}

/-- The node of an element has its key and its object. -/
abbrev Content (m : Mem ο) (e : Elem ο) : Prop :=
  (m.node e.node).key = e.key ∧ (m.node e.node).object = e.object

theorem Becomes.content {S : List Nat} {e : Elem ο} (h : Becomes m m' hp fs rest S)
    (he : e.node ∈ S) (hc : Content m e) : Content m' e :=
  ⟨(congrArg Prod.fst (h.kept _ he)).trans hc.1, (congrArg Prod.snd (h.kept _ he)).trans hc.2⟩

/-- The first heap, and what it owns. -/
theorem World.heap (h : World m ((hp, l) :: r)) : ∃ fs, Heap m hp fs ∧
    (l.map Elem.node).Perm (cells fs) ∧ m.Holds (hp :: cells fs ++ r.flatMap foot) ∧
    ∀ e ∈ l, Content m e := by
  obtain ⟨fs, hheap, hperm, hcontent⟩ := h.rep (hp, l) mem_cons_self
  exact ⟨fs, hheap, hperm, h.holds.perm ((hperm.cons hp).append_right _), hcontent⟩

/-- The heaps `olds` have become one heap. -/
theorem World.change {S : List Nat} (olds : Heaps ο) (h : World m (olds ++ r))
    (hb : Becomes m m' hp fs (r.flatMap foot) S) (hperm : (l.map Elem.node).Perm (cells fs))
    (hcontent : ∀ e ∈ l, Content m' e) : World m' ((hp, l) :: r) := by
  exact Pool.World.change olds h Rep.frame (y := (hp, l)) (hb.beside.perm (hperm.symm.cons hp))
    ⟨fs, hb.heap, hperm, hcontent⟩

/-- The order in which the elements are listed is of no importance. -/
theorem World.reorder {l' : List (Elem ο)} (h : World m ((hp, l) :: r)) (hl : l.Perm l') :
    World m ((hp, l') :: r) := by
  obtain ⟨fs, hheap, hperm, hown, hcontent⟩ := World.heap h
  exact World.change (S := []) [(hp, l)] h ⟨hheap, .refl hown, by simp⟩
    ((hl.map Elem.node).symm.trans hperm) fun e he => hcontent e (hl.mem_iff.2 he)

theorem create_step (h : World m s) : World (createHeap m).1 (((createHeap m).2, []) :: s) := by
  have hb : m.Beside (s.flatMap foot) [] m := .refl h.holds
  have hheap : Heap (createHeap m).1 (createHeap m).2 [] :=
    ⟨⟨by simp [Path, createHeap], by simp⟩, by simp, .nil, by simp, by simp⟩
  exact World.change (S := []) [] h ⟨hheap, hb.getNode.modify mem_cons_self fun n =>
    { n with right := none }, by simp⟩ .rfl (by simp)

theorem insert_step (newKey : Int) (newObj : ο) (h : World m ((hp, l) :: r)) :
    ∃ m' n, insert newKey newObj m hp = some (m', n) ∧
      World m' ((hp, ⟨n, newKey, newObj⟩ :: l) :: r) := by
  obtain ⟨fs, hheap, hperm, hown, hcontent⟩ := World.heap h
  obtain ⟨m', n, hins, hnew, hb⟩ := insert_ok newKey newObj hheap hown
  refine ⟨m', n, hins, World.change [(hp, l)] h hb (by simpa [Bin.cells] using hperm) fun e he =>
    ?_⟩
  rcases mem_cons.1 he with rfl | he
  · exact Prod.mk.inj hnew
  · exact hb.content (hperm.mem_iff.1 (mem_map_of_mem he)) (hcontent e he)

theorem decreaseKey_step {e : Elem ο} {es : List (Elem ο)} {newKey : Int}
    (h : World m ((hp, e :: es) :: r)) (hle : newKey ≤ e.key)
    (hrUp : (m.node e.node).rUp = none)
    (habove : ∀ x ∈ e :: es, Reaches m (m.node x.node).right e.node → x.key ≤ newKey) :
    ∃ m', decreaseKey newKey m e.node hp = some m' ∧
      World m' ((hp, ⟨e.node, newKey, e.object⟩ :: es) :: r) := by
  obtain ⟨fs, hheap, hperm, hown, hcontent⟩ := World.heap h
  have he := hcontent e mem_cons_self
  obtain ⟨m', hdec, hb, hkey, hobj⟩ :=
    decreaseKey_ok hheap (hperm.mem_iff.1 mem_cons_self) (he.1.symm ▸ hle) hrUp hown (by
      intro a ha hreach
      obtain ⟨x, hx, rfl⟩ := mem_map.1 (hperm.mem_iff.2 ha)
      rw [(hcontent x hx).1]
      exact habove x hx hreach)
  have hesnd : e.node ∉ es.map Elem.node :=
    (nodup_cons.1 (hperm.nodup_iff.2 (nodup_cons.1 hheap.nodup).2)).1
  refine ⟨m', hdec, World.change [(hp, e :: es)] h hb hperm fun y hy => ?_⟩
  rcases mem_cons.1 hy with rfl | hy
  · exact ⟨by rw [hkey, if_pos rfl], by rw [hobj, he.2]⟩
  · have hne : y.node ≠ e.node := fun heq => hesnd (heq ▸ mem_map_of_mem hy)
    rw [Content, hkey, hobj, if_neg hne]
    exact hcontent y (mem_cons_of_mem _ hy)

theorem merge_step {hp1 hp2 : Nat} {l1 l2 : List (Elem ο)}
    (h : World m ((hp1, l1) :: (hp2, l2) :: r)) :
    ∃ m' hp, merge m hp1 hp2 = some (m', hp) ∧ hp ∈ [hp1, hp2] ∧
      World m' ((hp, l1 ++ l2) :: r) := by
  obtain ⟨fs1, hheap1, hperm1, hcontent1⟩ := h.rep (hp1, l1) (by simp)
  obtain ⟨fs2, hheap2, hperm2, hcontent2⟩ := h.rep (hp2, l2) (by simp)
  have hown : m.Holds (hp1 :: cells fs1 ++ (hp2 :: cells fs2 ++ r.flatMap foot)) :=
    h.holds.perm ((hperm1.cons hp1).append ((hperm2.cons hp2).append_right _))
  obtain ⟨m', hp, hmerge, hhp, hb⟩ := merge_ok hheap1 hheap2 hown
  have hperm' : ((l1 ++ l2).map Elem.node).Perm (cells (fs1 ++ fs2)) := by
    rw [map_append, cells_append]
    exact hperm1.append hperm2
  refine ⟨m', hp, hmerge, hhp, World.change [(hp1, l1), (hp2, l2)] h hb hperm' fun e he => ?_⟩
  refine hb.content (hperm'.mem_iff.1 (mem_map_of_mem he)) ?_
  rcases mem_append.1 he with he | he
  · exact hcontent1 e he
  · exact hcontent2 e he

theorem deleteMin_step (h : World m ((hp, l) :: r)) (hl : l ≠ []) (hfew : l.length < 2 ^ 100) :
    ∃ m' e es, deleteMin m hp = some (m', some e.object) ∧ l.Perm (e :: es) ∧
      (∀ x ∈ es, e.key ≤ x.key) ∧ World m' ((hp, es) :: r) := by
  obtain ⟨fs, hheap, hperm, hown, hcontent⟩ := World.heap h
  have hlen := hperm.length_eq
  rw [length_map] at hlen
  have hfs : fs ≠ [] := by
    rintro rfl
    exact hl (length_eq_zero_iff.1 hlen)
  obtain ⟨m', mn, gs, hdel, hleast, hcells, hb⟩ := deleteMin_ok hheap hfs hown (hlen ▸ hfew)
  obtain ⟨e, he, rfl⟩ := mem_map.1 (hperm.mem_iff.2 (hcells.mem_iff.2 mem_cons_self))
  obtain ⟨es, hes⟩ := exists_perm_cons he
  have hperm' : (es.map Elem.node).Perm (cells gs) :=
    Perm.cons_inv (((hes.map Elem.node).symm.trans hperm).trans hcells)
  have hkey : ∀ x ∈ l, (m.node x.node).key = x.key := fun x hx => (hcontent x hx).1
  rw [(hcontent e he).2] at hdel
  refine ⟨m', e, es, hdel, hes, fun x hx => ?_, World.change [(hp, l)] h hb hperm' fun y hy => ?_⟩
  · have hxl := hes.mem_iff.2 (mem_cons_of_mem _ hx)
    rw [← hkey e he, ← hkey x hxl]
    exact hleast x.node (hperm.mem_iff.1 (mem_map_of_mem hxl))
  · exact hb.content (hperm'.mem_iff.1 (mem_map_of_mem hy))
      (hcontent y (hes.mem_iff.2 (mem_cons_of_mem _ hy)))

/-- One call. -/
theorem step_ok (h : World m s) {c : Call ο} (ha : Allowed s c) (hc : NoCut m s c) :
    ∃ m' ans s', exec m c = some (m', ans) ∧ Step s c ans s' ∧ World m' s' := by
  cases c with
  | create => exact ⟨_, _, _, rfl, .create _, create_step h⟩
  | insert newKey newObj hp =>
    obtain ⟨l, hl⟩ := ha
    obtain ⟨r, hr⟩ := exists_perm_cons hl
    obtain ⟨m', n, hins, hw⟩ := insert_step newKey newObj (Pool.World.perm h hr)
    exact ⟨m', _, _, by simp [exec, hins], .insert n hr, hw⟩
  | decreaseKey newKey n hp =>
    obtain ⟨l, hl, e, he, rfl, hle⟩ := ha
    obtain ⟨hrUp, habove⟩ := hc
    obtain ⟨r, hr⟩ := exists_perm_cons hl
    obtain ⟨es, hes⟩ := exists_perm_cons he
    have hw : World m ((hp, e :: es) :: r) := World.reorder (Pool.World.perm h hr) hes
    obtain ⟨m', hdec, hw'⟩ := decreaseKey_step hw hle hrUp fun x hx =>
      habove l hl x (hes.mem_iff.2 hx)
    exact ⟨m', _, _, by simp [exec, hdec], .decreaseKey hr hes, hw'⟩
  | merge hp1 hp2 =>
    obtain ⟨hne, ⟨l1, hl1⟩, l2, hl2⟩ := ha
    obtain ⟨r1, hr1⟩ := exists_perm_cons hl1
    have hl2' : (hp2, l2) ∈ r1 := by
      refine (mem_cons.1 (hr1.mem_iff.1 hl2)).resolve_left fun heq => hne ?_
      exact (congrArg Prod.fst heq).symm
    obtain ⟨r, hr⟩ := exists_perm_cons hl2'
    have hs := hr1.trans (hr.cons _)
    obtain ⟨m', hp, hmerge, hhp, hw⟩ := merge_step (Pool.World.perm h hs)
    exact ⟨m', _, _, by simp [exec, hmerge], .merge hs hhp, hw⟩
  | deleteMin hp =>
    obtain ⟨l, hl⟩ := ha
    obtain ⟨r, hr⟩ := exists_perm_cons hl
    by_cases hempty : l = []
    · subst hempty
      obtain ⟨fs, hheap, hperm, -⟩ := h.rep (hp, []) hl
      have hright : (m.node hp).right = none := hheap.right_eq_none_iff.2 (by
          cases fs with
          | nil => rfl
          | cons f fs => exact absurd hperm.length_eq (by simp))
      exact ⟨m, _, s, by simp [exec, deleteMin, hright], .deleteNone hr, h⟩
    · obtain ⟨m', e, es, hdel, hes, hmin, hw⟩ :=
        deleteMin_step (Pool.World.perm h hr) hempty (hc l hl)
      exact ⟨m', _, _, by simp [exec, hdel], .deleteMin hr hes hmin, hw⟩

end Steps

theorem World.correct (h : World m s) (cs : List (Call ο)) : Correct NoCut m s cs := by
  induction cs generalizing m s with
  | nil => exact World.shows h
  | cons c cs ih =>
    refine ⟨World.shows h, fun ha hc => ?_⟩
    obtain ⟨m', ans, s', hexec, hstep, hw⟩ := step_ok h ha hc
    exact ⟨m', ans, s', hexec, hstep, ih hw⟩

/-- Whatever the nodes hold at the beginning: as long as no `decrease_key` needs a cut,
every call does what it is for, and `delete_min` removes an element with the least
key and no other. -/
theorem correct_of_noCut (node : Nat → Node ο) (cs : List (Call ο)) :
    Correct NoCut ⟨node, [], 0⟩ [] cs :=
  World.correct ⟨⟨by simp, by simp⟩, by simp⟩ cs

/-! ## A key that needs a cut -/

def execAll (m : Mem ο) : List (Call ο) → Option (Mem ο × List (Answer ο))
  | [] => some (m, [])
  | c :: cs => do
    let (m, ans) ← exec m c
    let (m, as) ← execAll m cs
    some (m, ans :: as)

/-- Memory that is all zero. -/
def zeroed : Mem Nat := ⟨fun _ => ⟨0, 0, none, none, none, none, 0, .complete⟩, [], 0⟩

/-- Three elements, at the nodes 1, 2 and 3; the `delete_min` puts the first one below the
second one. -/
def threeElems : List (Call Nat) :=
  [.create, .insert 3 30 0, .insert 2 20 0, .insert 1 10 0, .deleteMin 0]

def drain : List (Call Nat) := [.deleteMin 0, .deleteMin 0, .deleteMin 0]

theorem correct_threeElems : Correct NoCut zeroed [] (threeElems ++ .decreaseKey 2 1 0 :: drain) ∧
      (execAll zeroed (threeElems ++ .decreaseKey 2 1 0 :: drain)).map Prod.snd =
        some [.node 0, .node 1, .node 2, .node 3, .object (some 10), .done, .object (some 20),
          .object (some 30), .object none] :=
  ⟨correct_of_noCut _ _, by decide +kernel⟩

def inserted : Call ο → Nat
  | .insert .. => 1
  | _ => 0

def deleted : Answer ο → Nat
  | .object (some _) => 1
  | _ => 0

/-- No element is made or lost by what the calls are for. -/
theorem Step.size_eq (h : Step s c ans s') : elemCount s' + deleted ans = elemCount s +
    inserted c := by
  cases h with
  | create => simp [elemCount, deleted, inserted]
  | insert n h | merge h _ =>
    rw [elemCount_perm h]
    simp [elemCount, deleted, inserted]
    omega
  | decreaseKey h hl | deleteMin h hl _ =>
    rw [elemCount_perm h]
    have := hl.length_eq
    simp [elemCount, deleted, inserted] at this ⊢
    omega
  | deleteNone h => simp [deleted, inserted]

/-- A call on the heap `hp` that is allowed whatever the heap holds. -/
def Plain (hp : Nat) : Call ο → Prop
  | .insert _ _ hp' => hp' = hp
  | .deleteMin hp' => hp' = hp
  | _ => False

theorem Step.mem (h : Step s c ans s') (hc : Plain hp c) : ∃ l, (hp, l) ∈ s' := by
  cases h with
  | create | decreaseKey h hl | merge h _ => exact hc.elim
  | insert n h | deleteMin h hl _ =>
    obtain rfl := hc
    exact ⟨_, mem_cons_self⟩
  | deleteNone h =>
    obtain rfl := hc
    exact ⟨_, h.mem_iff.2 mem_cons_self⟩

theorem Correct.shows (h : Correct C m s cs) : Shows m s := by
  cases cs with
  | nil => exact h
  | cons c cs => exact h.1

theorem Correct.next (h : Correct C m s (c :: cs)) (ha : Allowed s c) (hc : C m s c)
    (hexec : exec m c = some (m', ans)) : ∃ s', Step s c ans s' ∧ Correct C m' s' cs := by
  obtain ⟨m1, ans1, s', hexec1, hstep, hrest⟩ := h.2 ha hc
  rw [hexec] at hexec1
  obtain ⟨rfl, rfl⟩ := Prod.mk.inj (some.inj hexec1)
  exact ⟨s', hstep, hrest⟩

theorem Plain.allowed (hc : Plain hp c) (h : ∃ l, (hp, l) ∈ s) : Allowed s c := by
  cases c with
  | create => trivial
  | insert k o hp' | deleteMin hp' =>
    obtain rfl := hc
    exact h
  | decreaseKey k n hp' | merge hp1 hp2 => exact hc.elim

/-- In a correct run the answers account for every element. -/
theorem Correct.plain (hp : Nat) (cs : List (Call ο)) {ds : List (Call ο)} {as : List (Answer ο)}
    (h : Correct (fun _ _ _ => True) m s (cs ++ ds)) (hhp : ∃ l, (hp, l) ∈ s)
    (hcs : ∀ c ∈ cs, Plain hp c) (hrun : execAll m cs = some (m', as)) :
    ∃ s', Correct (fun _ _ _ => True) m' s' ds ∧ (∃ l, (hp, l) ∈ s') ∧
      elemCount s' + (as.map deleted).sum = elemCount s + (cs.map inserted).sum := by
  induction cs generalizing m s as with
  | nil =>
    obtain ⟨rfl, rfl⟩ := Prod.mk.inj (some.inj hrun)
    exact ⟨s, h, hhp, rfl⟩
  | cons c cs ih =>
    have hc := hcs c mem_cons_self
    simp only [execAll, bind_eq_bind, bind_eq_some_iff, some.injEq,
      Prod.exists, Prod.mk.injEq] at hrun
    obtain ⟨m1, ans, hexec, m2, as', hrun, rfl, rfl⟩ := hrun
    obtain ⟨s1, hstep, hrest⟩ := h.next (hc.allowed hhp) trivial hexec
    obtain ⟨s', hcorrect, hhp', hsize⟩ :=
      ih hrest (hstep.mem hc) (fun c hc => hcs c (mem_cons_of_mem _ hc)) hrun
    refine ⟨s', hcorrect, hhp', ?_⟩
    have := hstep.size_eq
    simp only [map_cons, sum_cons]
    omega

/-- The memory after the calls. -/
def after (m : Mem ο) (cs : List (Call ο)) : Mem ο := ((execAll m cs).map Prod.fst).getD m

theorem execAll_eq (as : List (Answer ο)) (h : (execAll m cs).map Prod.snd = some as) :
    execAll m cs = some (after m cs, as) := by
  obtain ⟨⟨m', as'⟩, hrun, rfl⟩ := map_eq_some_iff.1 h
  simp [after, hrun]

theorem exec_eq (ans : Answer ο) (h : (exec m c).map Prod.snd = some ans) :
    exec m c = some (after m [c], ans) := by
  obtain ⟨⟨m', ans'⟩, hrun, rfl⟩ := map_eq_some_iff.1 h
  simp [after, execAll, hrun]

/-- The first element gets the key 0 below the second one and is deleted, but stays
linked: the heap gives out four objects of three. -/
theorem not_correct_threeElems :
    ¬ Correct (fun _ _ _ => True) zeroed [] (threeElems ++ .decreaseKey 0 1 0 :: drain) := by
  intro h
  set m1 := after zeroed [.create] with hm1
  set m2 := after m1 threeElems.tail with hm2
  set m3 := after m2 [.decreaseKey 0 1 0] with hm3
  obtain ⟨s1, hstep1, h1⟩ := h.next trivial trivial (exec_eq (.node 0) (by decide +kernel))
  obtain rfl : s1 = [(0, [])] := by
    cases hstep1
    rfl
  obtain ⟨s2, h2, ⟨l, hl⟩, hsize2⟩ := Correct.plain 0 threeElems.tail h1
    ⟨[], by simp⟩ (by simp [threeElems, Plain])
    (execAll_eq [.node 1, .node 2, .node 3, .object (some 10)] (by decide +kernel))
  have hmem : 1 ∈ l.map Elem.node := by
    refine (h2.shows.reaches (0, l) hl 1).1 ?_
    rw [show (m2.node 0).right = some 2 by decide +kernel]
    refine .right ?_
    rw [show (m2.node 2).right = some 1 by decide +kernel]
    exact .here 1
  obtain ⟨e, he, hnode⟩ := mem_map.1 hmem
  have hkey : (0 : Int) ≤ e.key := by
    rw [← (h2.shows.content (0, l) hl e he).1, hnode]
    decide +kernel
  obtain ⟨s3, hstep3, h3⟩ := h2.next ⟨l, hl, e, he, hnode, hkey⟩ trivial
    (exec_eq .done (by decide +kernel))
  have hhp3 : ∃ l, (0, l) ∈ s3 := by
    cases hstep3 with
    | decreaseKey => exact ⟨_, mem_cons_self⟩
  have hsize3 := hstep3.size_eq
  obtain ⟨s4, -, -, hsize4⟩ := Correct.plain 0 drain (append_nil drain ▸ h3) hhp3
    (by simp [drain, Plain])
    (execAll_eq [.object (some 30), .object (some 20), .object (some 30)] (by decide +kernel))
  simp [elemCount, deleted, inserted, threeElems, drain] at hsize2 hsize3 hsize4
  omega

end CLangProject.FiboHeap

import CLangProject.Linked
import CLangProject.FiboHeap

/-!
# Forests in memory

The nodes below a pointer form a binary tree (`Bin`), and `Lies` says that the
memory holds it at that pointer: with the links of the tree, with no smaller key
below a node, and with ranks that count the nodes, `2 ^ rank` for a node and
those below it. A `Block` is a node with the tree below it, whatever its own
`left` is; a path of blocks is a forest, and the leftmost path of a heap is one
(`Heap`).

An operation changes nodes of its own heap only, and no key or object (`Within`).
What it does not touch lies where it was (`Lies.congr`, `Block.congr`).
-/

namespace CLangProject.FiboHeap

open List

variable {ο : Type} {m m' m'' : Mem ο}

/-! ## Reading after writing -/

namespace Mem

variable {a b : Nat} {p : Ptr} {r : Int}

@[simp] theorem node_setLeft_ne (h : b ≠ a) : (m.setLeft a p).node b = m.node b :=
  Pool.node_modify_ne h

@[simp] theorem node_setRight_ne (h : b ≠ a) : (m.setRight a p).node b = m.node b :=
  Pool.node_modify_ne h

@[simp] theorem node_setUp_ne (h : b ≠ a) : (m.setUp a p).node b = m.node b := Pool.node_modify_ne h

@[simp] theorem node_setRank_ne (h : b ≠ a) : (m.setRank a r).node b = m.node b :=
  Pool.node_modify_ne h

@[simp] theorem left_setLeft_self : ((m.setLeft a p).node a).left = p := by simp [setLeft]

@[simp] theorem right_setRight_self : ((m.setRight a p).node a).right = p := by simp [setRight]

@[simp] theorem up_setUp_self : ((m.setUp a p).node a).up = p := by simp [setUp]

@[simp] theorem rank_setRank_self : ((m.setRank a r).node a).rank = r := by simp [setRank]

@[simp] theorem read_setLeft : ((m.setLeft a p).node b).right = (m.node b).right ∧
    ((m.setLeft a p).node b).up = (m.node b).up ∧ ((m.setLeft a p).node b).key = (m.node b).key ∧
    ((m.setLeft a p).node b).rank = (m.node b).rank :=
  ⟨Pool.read_modify Node.right rfl b, Pool.read_modify Node.up rfl b,
    Pool.read_modify Node.key rfl b, Pool.read_modify Node.rank rfl b⟩

@[simp] theorem read_setRight : ((m.setRight a p).node b).left = (m.node b).left ∧
    ((m.setRight a p).node b).up = (m.node b).up ∧ ((m.setRight a p).node b).key = (m.node b).key ∧
    ((m.setRight a p).node b).rank = (m.node b).rank :=
  ⟨Pool.read_modify Node.left rfl b, Pool.read_modify Node.up rfl b,
    Pool.read_modify Node.key rfl b, Pool.read_modify Node.rank rfl b⟩

@[simp] theorem read_setUp : ((m.setUp a p).node b).left = (m.node b).left ∧
    ((m.setUp a p).node b).right = (m.node b).right ∧ ((m.setUp a p).node b).key = (m.node b).key ∧
    ((m.setUp a p).node b).rank = (m.node b).rank :=
  ⟨Pool.read_modify Node.left rfl b, Pool.read_modify Node.right rfl b,
    Pool.read_modify Node.key rfl b, Pool.read_modify Node.rank rfl b⟩

@[simp] theorem read_setRank : ((m.setRank a r).node b).left = (m.node b).left ∧
    ((m.setRank a r).node b).right = (m.node b).right ∧
    ((m.setRank a r).node b).key = (m.node b).key :=
  ⟨Pool.read_modify Node.left rfl b, Pool.read_modify Node.right rfl b,
  Pool.read_modify Node.key rfl b⟩

end Mem

def Node.elem (n : Node ο) : Int × ο := (n.key, n.object)

/-- `m'` comes from `m` by changes of the nodes in `S`, not of their keys and
objects. -/
abbrev Within (S : List Nat) (m m' : Mem ο) : Prop := Pool.Within Node.elem S m m'

namespace Within

variable {S : List Nat}

theorem refl (S : List Nat) (m : Mem ο) : Within S m m := Pool.Within.refl _ S m

theorem trans (h : Within S m m') (h' : Within S m' m'') : Within S m m'' := Pool.Within.trans h h'

theorem key (h : Within S m m') (a : Nat) : (m'.node a).key = (m.node a).key :=
  congrArg Prod.fst (h.read a)

theorem ite_setLeft {P : Prop} [Decidable P] {a : Nat} {p : Ptr} (h : Within S m m') (ha : a ∈ S) :
    Within S m (if P then m'.setLeft a p else m') := by
  split
  · exact h.modify ha rfl
  · exact h

end Within

/-! ## Trees and forests -/

/-- A binary tree of nodes, with the links `left` and `right`. -/
inductive Bin where
  | nil
  | node (a : Nat) (left right : Bin)

namespace Bin

def cells : Bin → List Nat
  | nil => []
  | node a l r => a :: (r.cells ++ l.cells)

/-- The path from the topmost node on, each node with the tree below it. -/
def roots : Bin → List (Nat × Bin)
  | nil => []
  | node a l r => (a, r) :: l.roots

end Bin

/-- A path of blocks. -/
abbrev Forest := List (Nat × Bin)

variable {a : Nat} {p : Ptr} {f : Nat × Bin} {fs : Forest} {t : Bin}

namespace Forest

def cells (fs : Forest) : List Nat := fs.flatMap fun f => f.1 :: f.2.cells

def tops (fs : Forest) : List Nat := fs.map Prod.fst

@[simp] theorem cells_nil : cells [] = [] := rfl

@[simp] theorem cells_cons (f : Nat × Bin) (fs : Forest) :
    cells (f :: fs) = f.1 :: (f.2.cells ++ cells fs) := by simp [cells]

@[simp] theorem cells_append (fs gs : Forest) : cells (fs ++ gs) = cells fs ++ cells gs := by
  simp [cells]

@[simp] theorem tops_nil : tops [] = [] := rfl

@[simp] theorem tops_cons (f : Nat × Bin) (fs : Forest) : tops (f :: fs) = f.1 :: tops fs := rfl

@[simp] theorem tops_append (fs gs : Forest) : tops (fs ++ gs) = tops fs ++ tops gs := by
  simp [tops]

theorem cells_perm {gs : Forest} (h : fs.Perm gs) : (cells fs).Perm (cells gs) := h.flatMap_right _

theorem cells_sublist {gs : Forest} (h : fs.Sublist gs) : (cells fs).Sublist (cells gs) := by
  induction h with
  | slnil => exact .slnil
  | cons f _ ih => exact ih.trans (cells_cons f _ ▸ sublist_cons_of_sublist _
      (sublist_append_right _ _))
  | cons_cons f _ ih =>
    rw [cells_cons, cells_cons]
    exact (ih.append_left _).cons_cons _

theorem mem_cells (h : f ∈ fs) (ha : a ∈ f.1 :: f.2.cells) : a ∈ cells fs :=
  mem_flatMap.2 ⟨f, h, ha⟩

theorem mem_cells_below (h : f ∈ fs) (ha : a ∈ f.2.cells) : a ∈ cells fs :=
  mem_cells h (mem_cons_of_mem _ ha)

theorem tops_sublist (fs : Forest) : (tops fs).Sublist (cells fs) := by
  induction fs with
  | nil => exact Sublist.slnil
  | cons f fs ih =>
    rw [tops_cons, cells_cons]
    exact (ih.trans (sublist_append_right _ _)).cons_cons f.1

/-- A node on the path is not below another one. -/
theorem top_not_below (h : (cells fs).Nodup) {g : Nat × Bin} (hf : f ∈ fs)
    (hg : g ∈ fs) : f.1 ∉ g.2.cells := by
  induction fs with
  | nil => simp at hf
  | cons x fs ih =>
    rw [cells_cons] at h
    obtain ⟨hx, h⟩ := nodup_cons.1 h
    obtain ⟨-, hfs, hdisj⟩ := nodup_append.1 h
    rcases mem_cons.1 hf with rfl | hf'
    · rcases mem_cons.1 hg with rfl | hg'
      · exact fun hmem => hx (mem_append_left _ hmem)
      · exact fun hmem => hx (mem_append_right _ (mem_cells_below hg' hmem))
    · rcases mem_cons.1 hg with rfl | hg'
      · exact fun hmem => hdisj _ hmem _ (mem_cells hf' mem_cons_self) rfl
      · exact ih hfs hf' hg'

theorem mem_tops : a ∈ tops fs ↔ ∃ t, (a, t) ∈ fs := by
  simp [tops]

theorem mem_cells_of_mem_tops (h : a ∈ tops fs) : a ∈ cells fs := (tops_sublist fs).subset h

end Forest

open Forest

theorem cells_roots (t : Bin) : cells t.roots = t.cells := by
  induction t with
  | nil => rfl
  | node a l r ihl _ => rw [Bin.roots, cells_cons, ihl, Bin.cells]

/-- The link to the next node of a path. -/
def Mem.left (m : Mem ο) (a : Nat) : Ptr := (m.node a).left

/-- The tree at a pointer, in order and with its ranks. -/
def Lies (m : Mem ο) : Ptr → Bin → Prop
  | p, .nil => p = none
  | p, .node a l r => p = some a ∧ Lies m (m.node a).left l ∧ Lies m (m.node a).right r ∧
      (∀ b ∈ r.cells, (m.node a).key ≤ (m.node b).key) ∧
        ∃ n : Nat, (m.node a).rank = n ∧ r.cells.length + 1 = 2 ^ n

/-- A node with the tree below it. -/
structure Block (m : Mem ο) (f : Nat × Bin) : Prop where
  lies : Lies m (m.node f.1).right f.2
  least : ∀ b ∈ f.2.cells, (m.node f.1).key ≤ (m.node b).key
  rank : ∃ n : Nat, (m.node f.1).rank = n ∧ f.2.cells.length + 1 = 2 ^ n

theorem lies_iff : Lies m p t ↔ Path m.left p (tops t.roots) none ∧ ∀ f ∈ t.roots, Block m f := by
  induction t generalizing p with
  | nil => simp [Lies, Bin.roots, Path]
  | node a l r ihl _ =>
    rw [Lies, ihl, Bin.roots, tops_cons, Path, forall_mem_cons]
    constructor
    · rintro ⟨rfl, ⟨hpath, hblocks⟩, hr, hle, hrank⟩
      exact ⟨⟨rfl, hpath⟩, ⟨hr, hle, hrank⟩, hblocks⟩
    · rintro ⟨⟨rfl, hpath⟩, ⟨hr, hle, hrank⟩, hblocks⟩
      exact ⟨rfl, ⟨hpath, hblocks⟩, hr, hle, hrank⟩

/-- The fields of a node that its place in a tree depends on. -/
structure Same (n n' : Node ο) : Prop where
  left : n'.left = n.left
  right : n'.right = n.right
  key : n'.key = n.key
  rank : n'.rank = n.rank

theorem Same.of_eq {n n' : Node ο} (h : n' = n) : Same n n' := h ▸ ⟨rfl, rfl, rfl, rfl⟩

theorem Same.trans {n n' n'' : Node ο} (h : Same n n') (h' : Same n' n'') : Same n n'' :=
  ⟨h'.left.trans h.left, h'.right.trans h.right, h'.key.trans h.key, h'.rank.trans h.rank⟩

theorem Same.setUp {b : Nat} : Same (m.node b) ((m.setUp a p).node b) :=
  ⟨by simp, by simp, by simp, by simp⟩

section

variable (h : Lies m p t)
include h

theorem Lies.congr (heq : ∀ a ∈ t.cells, Same (m.node a) (m'.node a)) : Lies m' p t := by
  induction t generalizing p with
  | nil => exact h
  | node a l r ihl ihr =>
    obtain ⟨rfl, hl, hr, hle, hrank⟩ := h
    have hla : ∀ b ∈ l.cells, Same (m.node b) (m'.node b) := fun b hb =>
      heq b (mem_cons_of_mem _ (mem_append_right _ hb))
    have hra : ∀ b ∈ r.cells, Same (m.node b) (m'.node b) := fun b hb =>
      heq b (mem_cons_of_mem _ (mem_append_left _ hb))
    have ha := heq a mem_cons_self
    rw [Lies, ha.left, ha.right, ha.key, ha.rank]
    exact ⟨rfl, ihl hl hla, ihr hr hra, fun b hb => (hra b hb).key ▸ hle b hb, hrank⟩

theorem Lies.modify (ha : a ∉ t.cells) (g : Node ο → Node ο) : Lies (m.modify a g) p t :=
  h.congr fun _ hb => .of_eq (Pool.node_modify_ne fun hba => ha (hba ▸ hb))

theorem Lies.setUp (a : Nat) (q : Ptr) : Lies (m.setUp a q) p t := h.congr fun _ _ => .setUp

end

section

variable (h : Block m f)
include h

/-- A block does not depend on the `left` and `up` of its node. -/
theorem Block.congr (hright : (m'.node f.1).right = (m.node f.1).right)
    (hkey : (m'.node f.1).key = (m.node f.1).key) (hrank : (m'.node f.1).rank = (m.node f.1).rank)
    (heq : ∀ a ∈ f.2.cells, Same (m.node a) (m'.node a)) : Block m' f := by
  refine ⟨hright ▸ h.lies.congr heq, fun b hb => ?_, hrank ▸ h.rank⟩
  rw [hkey, (heq b hb).key]
  exact h.least b hb

theorem Block.frame (heq : ∀ a ∈ f.1 :: f.2.cells, m'.node a = m.node a) : Block m' f := by
  obtain ⟨htop, heq⟩ := forall_mem_cons.1 heq
  exact h.congr (by rw [htop]) (by rw [htop]) (by rw [htop]) fun a ha => .of_eq (heq a ha)

theorem Block.modify (ha : a ∉ f.1 :: f.2.cells) (g : Node ο → Node ο) : Block (m.modify a g) f :=
  h.frame fun _ hb => Pool.node_modify_ne fun hba => ha (hba ▸ hb)

theorem Block.setLeft (ha : a ∉ f.2.cells) (p : Ptr) : Block (m.setLeft a p) f :=
  h.congr (by simp) (by simp) (by simp) fun b hb =>
    .of_eq (Mem.node_setLeft_ne fun hba => ha (hba ▸ hb))

end

theorem Mem.left_of_setLeft_ne {b : Nat} (h : b ≠ a) : (m.setLeft a p).left b = m.left b :=
  congrArg Node.left (node_setLeft_ne h)

theorem Mem.left_of_setLeft_self : (m.setLeft a p).left a = p := left_setLeft_self

/-! ## Heaps -/

/-- The forest `fs` lies along the path from `p` on. -/
structure Spread (m : Mem ο) (p : Ptr) (fs : Forest) : Prop where
  path : Path m.left p (tops fs) none
  block : ∀ f ∈ fs, Block m f

namespace Spread

variable {p q : Ptr} {fs gs : Forest}

/-- Let a path go on in another one. -/
theorem join {e : Ptr} (hpath : Path m.left p (tops (fs ++ [f])) e)
    (hblock : ∀ g ∈ fs ++ [f], Block m g) (hgs : Spread m q gs)
    (hnodup : (cells (fs ++ [f] ++ gs)).Nodup) : Spread (m.setLeft f.1 q) p (fs ++ [f] ++ gs) := by
  have htops := hnodup.sublist (tops_sublist _)
  simp only [tops_append, tops_cons, tops_nil] at htops
  obtain ⟨hfirst, -, hdisj⟩ := nodup_append.1 htops
  have hfs' : ∀ a ∈ tops fs, a ≠ f.1 := fun a ha =>
    (nodup_append.1 hfirst).2.2 a ha f.1 (mem_singleton_self _)
  have hgs' : ∀ a ∈ tops gs, a ≠ f.1 := fun a ha heq =>
    hdisj f.1 (mem_append_right _ (mem_singleton_self _)) a ha heq.symm
  constructor
  · rw [tops_append, tops_cons, tops_nil] at hpath
    rw [tops_append, tops_append, tops_cons, tops_nil]
    refine path_append.2 ⟨q, ?_, ?_⟩
    · exact hpath.relink (fun a ha => Mem.left_of_setLeft_ne (hfs' a ha)) Mem.left_of_setLeft_self
    · exact hgs.path.congr fun a ha => Mem.left_of_setLeft_ne (hgs' a ha)
  · intro g hg
    have hg' : Block m g := by
      rcases mem_append.1 hg with hg | hg
      · exact hblock g hg
      · exact hgs.block g hg
    exact hg'.setLeft (top_not_below hnodup (by simp) hg) q

theorem congr (h : Spread m p fs) (heq : ∀ a ∈ cells fs, Same (m.node a) (m'.node a)) :
    Spread m' p fs := by
  refine ⟨h.path.congr fun a ha => (heq a (mem_cells_of_mem_tops ha)).left, fun f hf => ?_⟩
  have htop := heq _ (mem_cells hf mem_cons_self)
  exact (h.block f hf).congr htop.right htop.key htop.rank fun a ha => heq a (mem_cells_below hf ha)

theorem frame (h : Spread m p fs) (heq : ∀ a ∈ cells fs, m'.node a = m.node a) : Spread m' p fs :=
  h.congr fun a ha => .of_eq (heq a ha)

theorem modify (h : Spread m p fs) (ha : a ∉ cells fs) (g : Node ο → Node ο) :
    Spread (m.modify a g) p fs :=
  h.frame fun _ hb => Pool.node_modify_ne fun hba => ha (hba ▸ hb)

theorem setUp (h : Spread m p fs) (a : Nat) (q : Ptr) : Spread (m.setUp a q) p fs :=
  h.congr fun _ _ => .setUp

/-- Put a block on top of a path. -/
theorem cons (hf : Block m f) (hfs : Spread m p fs)
    (hnodup : (cells (f :: fs)).Nodup) : Spread (m.setLeft f.1 p) (some f.1) (f :: fs) := by
  have hjoin : Spread (m.setLeft f.1 p) (some f.1) ([] ++ [f] ++ fs) :=
    join (e := m.left f.1) ⟨rfl, rfl⟩ (by simpa using hf) hfs hnodup
  exact hjoin

end Spread

theorem Lies.spread (h : Lies m p t) : Spread m p t.roots := ⟨(lies_iff.1 h).1, (lies_iff.1 h).2⟩

/-- The tree with the blocks of a forest along its leftmost path. -/
def Forest.bin (fs : Forest) : Bin := fs.foldr (fun f t => .node f.1 t f.2) .nil

theorem roots_bin (fs : Forest) : (bin fs).roots = fs := by
  induction fs with
  | nil => rfl
  | cons f fs ih => exact congrArg (f :: ·) ih

theorem cells_bin (fs : Forest) : (bin fs).cells = cells fs := by
  rw [← cells_roots, roots_bin]

theorem Spread.lies (h : Spread m p fs) : Lies m p (bin fs) := by
  rw [lies_iff, roots_bin]
  exact ⟨h.path, h.block⟩

/-- What is not greater than an element on the path is not greater than those below it. -/
theorem Spread.least (h : Spread m p fs) {k : Int} (hle : ∀ b ∈ tops fs, k ≤ (m.node b).key)
    (ha : a ∈ cells fs) : k ≤ (m.node a).key := by
  obtain ⟨f, hf, hmem⟩ := mem_flatMap.1 ha
  have htop := hle f.1 (mem_tops.2 ⟨f.2, hf⟩)
  rcases mem_cons.1 hmem with rfl | hbelow
  · exact htop
  · exact htop.trans ((h.block f hf).least a hbelow)

/-- The heap `hp` has the forest `fs` on its leftmost path. -/
structure Heap (m : Mem ο) (hp : Nat) (fs : Forest) : Prop where
  spread : Spread m (m.node hp).right fs
  nodup : (hp :: cells fs).Nodup
  ups : (tops fs).IsChain fun a b => (m.node b).up = some a
  min : fs ≠ [] → ∃ a ∈ tops fs, (m.node hp).left = some a ∧
    ∀ b ∈ tops fs, (m.node a).key ≤ (m.node b).key
  last : ∀ a ∈ (tops fs).getLast?, (m.node hp).up = some a

end CLangProject.FiboHeap

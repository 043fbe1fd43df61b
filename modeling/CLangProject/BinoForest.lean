import CLangProject.BinaryDigits
import CLangProject.BinoHeap
import CLangProject.Cells

/-!
# Binomial heaps in memory

`LeftPath m p hs cs`: the left path from `p` on has nodes of the heights `hs`, and `cs` are all
nodes on it and below it. Each node has a left path of the heights `h - 1`, ..., `0` below its
`right`, and no smaller key there.

A path is taken apart into blocks, each one a node and what is below its `right`. Where a block
stands does not matter to it, that is, what its `left` is (`Block.Lies.congr`). A forest is `Spread`
along a path.
-/

namespace CLangProject.BinoHeap

open List

variable {ο : Type} {m m' : Mem ο} {a b h : Nat} {p q : Ptr} {hs cs ds : List Nat}

/-- The element of a node. -/
def Node.elem (n : Node ο) : Int × ο := (n.key, n.object)

inductive LeftPath (m : Mem ο) : Ptr → List Nat → List Nat → Prop where
  | nil : LeftPath m none [] []
  | cons {a h : Nat} {hs cs ds : List Nat} (height : (m.node a).height = h)
      (right : LeftPath m (m.node a).right (List.range h).reverse cs) (size : cs.length + 1 = 2 ^ h)
      (least : ∀ b ∈ cs, (m.node a).key ≤ (m.node b).key)
      (left : LeftPath m (m.node a).left hs ds) :
      LeftPath m (some a) (h :: hs) (a :: (cs ++ ds))

namespace LeftPath

theorem frame (h : LeftPath m p hs cs) (heq : ∀ a ∈ cs, m'.node a = m.node a) :
    LeftPath m' p hs cs := by
  induction h with
  | nil => exact .nil
  | @cons a h hs cs ds height _ size least _ ihright ihleft =>
    obtain ⟨ha, heq⟩ := forall_mem_cons.1 heq
    obtain ⟨hcs, hds⟩ := forall_mem_append.1 heq
    refine .cons (by rw [ha, height]) (by rw [ha]; exact ihright hcs) size (fun b hb => ?_)
      (by rw [ha]; exact ihleft hds)
    rw [ha, hcs b hb]
    exact least b hb

theorem length_eq (h : LeftPath m p hs cs) : cs.length = powSum hs := by
  induction h with
  | nil => rfl
  | cons _ _ size _ _ _ ih =>
    rw [length_cons, length_append, powSum_cons, ih]
    omega

end LeftPath

/-! ## Blocks -/

structure Block where
  top : Nat
  height : Nat
  below : List Nat

namespace Block

def cells (f : Block) : List Nat := f.top :: f.below

/-- The block in memory. -/
structure Lies (m : Mem ο) (f : Block) : Prop where
  height : (m.node f.top).height = f.height
  right : LeftPath m (m.node f.top).right (List.range f.height).reverse f.below
  least : ∀ b ∈ f.below, (m.node f.top).key ≤ (m.node b).key

variable {f g : Block}

section

variable (hf : f.Lies m)
include hf

theorem Lies.size : f.below.length + 1 = 2 ^ f.height := by
  rw [hf.right.length_eq, powSum_range_reverse]

theorem Lies.below_nil (h : f.height = 0) : f.below = [] := by
  have hsize := hf.size
  rw [h] at hsize
  exact length_eq_zero_iff.1 (Nat.succ.inj hsize)

/-- The `left` of the node may change. -/
theorem Lies.congr (hheight : (m'.node f.top).height = (m.node f.top).height)
    (hright : (m'.node f.top).right = (m.node f.top).right)
    (hkey : (m'.node f.top).key = (m.node f.top).key)
    (hbelow : ∀ a ∈ f.below, m'.node a = m.node a) : f.Lies m' := by
  refine ⟨hheight.trans hf.height, hright ▸ hf.right.frame hbelow, fun b hb => ?_⟩
  rw [hkey, hbelow b hb]
  exact hf.least b hb

theorem Lies.frame (heq : ∀ a ∈ f.cells, m'.node a = m.node a) : f.Lies m' := by
  obtain ⟨htop, hbelow⟩ := forall_mem_cons.1 heq
  exact hf.congr (by rw [htop]) (by rw [htop]) (by rw [htop]) hbelow

theorem Lies.setLeft (ha : a ∉ f.below) (p : Ptr) : f.Lies (m.setLeft a p) :=
  hf.congr (Pool.read_modify Node.height rfl _) (Pool.read_modify Node.right rfl _)
    (Pool.read_modify Node.key rfl _)
    fun _ hb => Pool.node_modify_ne fun heq => ha (heq ▸ hb)

end

/-- `g` is put below `f`, in front of what is there. -/
def link (f g : Block) : Block := ⟨f.top, f.height + 1, g.top :: (g.below ++ f.below)⟩

theorem Lies.link (hf : f.Lies m) (hg : g.Lies m) (hheight : f.height = g.height)
    (hle : (m.node f.top).key ≤ (m.node g.top).key) (hkey : ∀ a, (m'.node a).key = (m.node a).key)
    (hbelow : ∀ a ∈ g.below ++ f.below, m'.node a = m.node a)
    (hfheight : (m'.node f.top).height = f.height + 1)
    (hfright : (m'.node f.top).right = some g.top) (hgheight : (m'.node g.top).height = g.height)
    (hgright : (m'.node g.top).right = (m.node g.top).right)
    (hgleft : (m'.node g.top).left = (m.node f.top).right) :
    (f.link g).Lies m' := by
  obtain ⟨hgb, hfb⟩ := forall_mem_append.1 hbelow
  refine ⟨?_, ?_, ?_⟩
  · rw [Block.link, hfheight]
    rfl
  · rw [Block.link, hfright, range_succ, reverse_concat, hheight]
    refine .cons hgheight (by rw [hgright]; exact hg.right.frame hgb) hg.size (fun b hb => ?_) ?_
    · rw [hkey, hkey]
      exact hg.least b hb
    · rw [hgleft, ← hheight]
      exact hf.right.frame hfb
  · intro b hb
    simp only [Block.link] at hb ⊢
    rw [hkey, hkey]
    rcases mem_cons.1 hb with rfl | hb
    · exact hle
    · rcases mem_append.1 hb with hb | hb
      · exact Int.le_trans hle (hg.least b hb)
      · exact hf.least b hb

theorem cells_link (f g : Block) : (f.link g).cells.Perm (f.cells ++ g.cells) :=
  (show (g.cells ++ f.below).Perm (f.below ++ g.cells) from perm_append_comm).cons f.top

end Block

abbrev Forest := List Block

namespace Forest

def tops (fs : Forest) : List Nat := fs.map Block.top

def heights (fs : Forest) : List Nat := fs.map Block.height

def cells (fs : Forest) : List Nat := fs.flatMap Block.cells

variable {f : Block} {fs gs : Forest}

@[simp] theorem tops_cons : tops (f :: fs) = f.top :: tops fs := rfl

@[simp] theorem tops_append : tops (fs ++ gs) = tops fs ++ tops gs := map_append

@[simp] theorem heights_nil : heights [] = [] := rfl

@[simp] theorem heights_cons : heights (f :: fs) = f.height :: heights fs := rfl

@[simp] theorem heights_append : heights (fs ++ gs) = heights fs ++ heights gs := map_append

@[simp] theorem cells_nil : cells [] = [] := rfl

@[simp] theorem cells_cons : cells (f :: fs) = f.top :: (f.below ++ cells fs) := by
  simp [cells, Block.cells]

@[simp] theorem cells_append : cells (fs ++ gs) = cells fs ++ cells gs := flatMap_append

theorem mem_cells (hf : f ∈ fs) (ha : a ∈ f.cells) : a ∈ cells fs := mem_flatMap.2 ⟨f, hf, ha⟩

theorem tops_sublist (fs : Forest) : (tops fs).Sublist (cells fs) := by
  induction fs with
  | nil => exact .slnil
  | cons f fs ih =>
    rw [tops_cons, cells_cons]
    exact (ih.trans (sublist_append_right ..)).cons_cons f.top

/-- A node on the path is not below another one. -/
theorem top_not_below {g : Block} (h : (cells fs).Nodup) (hf : f ∈ fs) (hg : g ∈ fs) :
    f.top ∉ g.below := by
  obtain ⟨hnodup, hdisj⟩ := nodup_flatMap.1 h
  by_cases heq : f = g
  · subst heq
    exact (nodup_cons.1 (hnodup f hf)).1
  · have hsymm : Std.Symm (Function.onFun List.Disjoint Block.cells) :=
      ⟨fun _ _ hd _ hb ha => hd ha hb⟩
    exact fun hmem => hdisj.forall hf hg heq mem_cons_self (mem_cons_of_mem _ hmem)

end Forest

open Forest

/-- The forest `fs` lies along the left path from `p` on. -/
structure Spread (m : Mem ο) (p : Ptr) (fs : Forest) : Prop where
  path : Path m.left p (tops fs) none
  block : ∀ f ∈ fs, f.Lies m

namespace Spread

variable {f : Block} {fs : Forest}

theorem frame (h : Spread m p fs) (heq : ∀ a ∈ cells fs, m'.node a = m.node a) :
    Spread m' p fs := by
  refine ⟨h.path.congr fun a ha => ?_, fun f hf => (h.block f hf).frame fun a ha =>
    heq a (mem_cells hf ha)⟩
  rw [Mem.left, heq a ((tops_sublist fs).subset ha), Mem.left]

theorem of_cons (h : Spread m (some a) (f :: fs)) : f.top = a ∧ f.Lies m ∧
    Spread m (m.left a) fs := by
  obtain ⟨htop, hpath⟩ := h.path
  obtain ⟨hf, hfs⟩ := forall_mem_cons.1 h.block
  obtain rfl := Option.some.inj htop
  exact ⟨rfl, hf, hpath, hfs⟩

theorem cons_of (hf : f.Lies m) (hfs : Spread m (m.left f.top) fs) :
    Spread m (some f.top) (f :: fs) :=
  ⟨⟨rfl, hfs.path⟩, forall_mem_cons.2 ⟨hf, hfs.block⟩⟩

/-- A block is put in front of the path. -/
theorem cons (hf : f.Lies m) (hfs : Spread m p fs) (hnodup : (cells (f :: fs)).Nodup) :
    Spread (m.setLeft f.top p) (some f.top) (f :: fs) := by
  rw [cells_cons] at hnodup
  obtain ⟨htop, -⟩ := nodup_cons.1 hnodup
  refine cons_of (hf.setLeft (fun ha => htop (mem_append_left _ ha)) p) ?_
  have hleft : (m.setLeft f.top p).left f.top = p := congrArg Node.left Pool.node_modify_self
  rw [hleft]
  exact hfs.frame fun a ha => Pool.node_modify_ne fun heq => htop (mem_append_right _ (heq ▸ ha))

/-- The first node of the path is copied. -/
theorem copy (h : Spread m (some a) (f :: fs)) (hb : b ∉ cells (f :: fs)) :
    Spread (m.copy b a) (some b) ({ f with top := b } :: fs) := by
  obtain ⟨rfl, hf, hfs⟩ := h.of_cons
  have hnode : (m.copy b f.top).node b = m.node f.top := Pool.node_modify_self
  rw [cells_cons] at hb
  have hsame : ∀ c ∈ f.below ++ cells fs, (m.copy b f.top).node c = m.node c := fun c hc =>
    Pool.node_modify_ne fun heq => hb (mem_cons_of_mem _ (heq ▸ hc))
  obtain ⟨hbelow, hrest⟩ := forall_mem_append.1 hsame
  have hlies : Block.Lies (m.copy b f.top) { f with top := b } := by
    refine ⟨by rw [hnode, hf.height], by rw [hnode]; exact hf.right.frame hbelow, fun c hc => ?_⟩
    rw [hnode, hbelow c hc]
    exact hf.least c hc
  refine cons_of hlies ?_
  rw [Mem.left, hnode]
  exact hfs.frame hrest

end Spread

theorem LeftPath.spread (h : LeftPath m p hs cs) : ∃ fs, Spread m p fs ∧ heights fs = hs ∧
    cells fs = cs := by
  induction h with
  | nil => exact ⟨[], ⟨rfl, nofun⟩, rfl, rfl⟩
  | @cons a h hs cs ds height right _ least _ _ ih =>
    obtain ⟨fs, hfs, rfl, rfl⟩ := ih
    exact ⟨⟨a, h, cs⟩ :: fs, .cons_of (f := ⟨a, h, cs⟩) ⟨height, right, least⟩ hfs, rfl, cells_cons⟩

theorem Spread.leftPath {fs : Forest} (h : Spread m p fs) :
    LeftPath m p (heights fs) (cells fs) := by
  induction fs generalizing p with
  | nil =>
    obtain rfl : p = none := h.path
    exact .nil
  | cons f fs ih =>
    obtain rfl : p = some f.top := h.path.1
    obtain ⟨-, hf, hfs⟩ := h.of_cons
    rw [heights_cons, cells_cons]
    exact .cons hf.height hf.right hf.size hf.least (ih hfs)

end CLangProject.BinoHeap

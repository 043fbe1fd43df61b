import Mathlib

/-!
# A pool of nodes

Nodes are addressed by natural numbers. A pool keeps the nodes that were given
back on a free list and takes the next node from there; only when the list is
empty it takes a node that has never been used. A node keeps its contents when it
is handed out, so that a field nobody sets has an arbitrary value.

`Holds P l`: the clients of the pool own the nodes `l`, each one once, and none of
them is free. `World` is the state of several structures that live in one pool: each
is represented in its own nodes, and a change within the nodes of one of them
leaves the others as they are.
-/

namespace CLangProject

open List

structure Pool (ν : Type*) where
  node : Nat → ν
  freeList : List Nat
  next : Nat

namespace Pool

variable {ν : Type*} {P P' : Pool ν} {a b : Nat} {f : ν → ν} {l l' : List Nat}

/-- Change a node. -/
def modify (P : Pool ν) (a : Nat) (f : ν → ν) : Pool ν :=
  { P with node := Function.update P.node a (f (P.node a)) }

def getNode (P : Pool ν) : Nat × Pool ν :=
  match P.freeList with
  | a :: rest => (a, { P with freeList := rest })
  | [] => (P.next, { P with next := P.next + 1 })

/-- Put a node on the free list; `link` writes the pointer to the rest of the list
into the node. -/
def returnNode (P : Pool ν) (link : Option Nat → ν → ν) (a : Nat) : Pool ν :=
  { P.modify a (link P.freeList.head?) with freeList := a :: P.freeList }

/-! ## Reading after writing -/

@[simp] theorem node_modify_self : (P.modify a f).node a = f (P.node a) := by simp [modify]

@[simp] theorem node_modify_ne (h : b ≠ a) : (P.modify a f).node b = P.node b := by
  simp [modify, h]

section

variable {α : Type*} (g : ν → α) (h : g (f (P.node a)) = g (P.node a))
include g h

/-- A field that a change leaves alone can be read as before. -/
theorem read_modify (b : Nat) : g ((P.modify a f).node b) = g (P.node b) := by
  by_cases hb : b = a
  · rw [hb, node_modify_self, h]
  · rw [node_modify_ne hb]

theorem field_same :
    (fun b => g ((P.modify a f).node b)) = fun b => g (P.node b) := funext (read_modify g h)

end

theorem field_modify {α : Type*} (g : ν → α) : (fun b => g ((P.modify a f).node b)) =
    Function.update (fun b => g (P.node b)) a (g (f (P.node a))) := by
  funext b
  by_cases hb : b = a
  · rw [hb, Function.update_self, node_modify_self]
  · rw [Function.update_of_ne hb, node_modify_ne hb]

@[simp] theorem node_getNode : P.getNode.2.node = P.node := by
  unfold getNode
  split <;> rfl

variable {link : Option Nat → ν → ν}

@[simp] theorem node_returnNode_ne (h : b ≠ a) : (P.returnNode link a).node b = P.node b :=
  node_modify_ne h

theorem read_returnNode {α : Type*} (g : ν → α) (h : ∀ p n, g (link p n) = g n) (b : Nat) :
    g ((P.returnNode link a).node b) = g (P.node b) :=
  read_modify g (h _ _) b

/-! ## Who owns a node -/

/-- The clients own the nodes `l`. -/
structure Holds (P : Pool ν) (l : List Nat) : Prop where
  nodup : (P.freeList ++ l).Nodup
  below : ∀ a ∈ P.freeList ++ l, a < P.next

namespace Holds

section

variable (h : P.Holds l)
include h

theorem perm (hl : l.Perm l') : P.Holds l' :=
  ⟨(hl.append_left _).nodup_iff.1 h.nodup, fun a ha => h.below a ((hl.append_left _).mem_iff.2 ha)⟩

theorem of_eq (hfree : P'.freeList = P.freeList) (hnext : P'.next = P.next) : P'.Holds l :=
  ⟨hfree ▸ h.nodup, hfree ▸ hnext ▸ h.below⟩

theorem nodup_owned : l.Nodup := (nodup_append.1 h.nodup).2.1

theorem lt_next (ha : a ∈ l) : a < P.next := h.below a (mem_append_right _ ha)

theorem getNode : P.getNode.2.Holds (P.getNode.1 :: l) := by
  unfold Pool.getNode
  split
  · rename_i a rest hfree
    obtain ⟨hnodup, hbelow⟩ := h
    rw [hfree, cons_append] at hnodup hbelow
    exact ⟨perm_middle.nodup_iff.2 hnodup, fun b hb => hbelow b (perm_middle.mem_iff.1 hb)⟩
  · rename_i hfree
    obtain ⟨hnodup, hbelow⟩ := h
    rw [hfree, nil_append] at hnodup hbelow
    refine ⟨?_, ?_⟩
    · rw [hfree, nil_append]
      exact nodup_cons.2 ⟨fun hmem => Nat.lt_irrefl _ (hbelow _ hmem), hnodup⟩
    · rw [hfree, nil_append]
      intro b hb
      rcases mem_cons.1 hb with rfl | hb
      · exact Nat.lt_succ_self _
      · exact Nat.lt_succ_of_lt (hbelow b hb)

/-- The node handed out is new. -/
theorem fresh : P.getNode.1 ∉ l := (nodup_cons.1 h.getNode.nodup_owned).1

end

theorem returnNode {link : Option Nat → ν → ν} (h : P.Holds (a :: l)) :
    (P.returnNode link a).Holds l :=
  ⟨perm_middle.nodup_iff.1 h.nodup, fun b hb => h.below b (perm_middle.mem_iff.2 hb)⟩

end Holds

/-! ## Changes of some nodes -/

section Within

variable {β : Type*} {g : ν → β} {S S' : List Nat} {P'' : Pool ν}

/-- `P'` comes from `P` by changes of the nodes in `S` that keep what `g` reads. -/
structure Within (g : ν → β) (S : List Nat) (P P' : Pool ν) : Prop where
  same : ∀ a ∉ S, P'.node a = P.node a
  read : ∀ a, g (P'.node a) = g (P.node a)
  freeList : P'.freeList = P.freeList
  next : P'.next = P.next

namespace Within

theorem refl (g : ν → β) (S : List Nat) (P : Pool ν) : Within g S P P :=
  ⟨fun _ _ => rfl, fun _ => rfl, rfl, rfl⟩

section

variable (h : Within g S P P')
include h

theorem trans (h' : Within g S P' P'') : Within g S P P'' :=
  ⟨fun a ha => (h'.same a ha).trans (h.same a ha), fun a => (h'.read a).trans (h.read a),
    h'.freeList.trans h.freeList, h'.next.trans h.next⟩

theorem mono (hS : ∀ a ∈ S, a ∈ S') : Within g S' P P' :=
  ⟨fun a ha => h.same a fun hs => ha (hS a hs), h.read, h.freeList, h.next⟩

theorem modify (ha : a ∈ S) (hf : g (f (P'.node a)) = g (P'.node a)) :
    Within g S P (P'.modify a f) :=
  h.trans ⟨fun _ hb => node_modify_ne fun heq => hb (heq ▸ ha), read_modify g hf, rfl, rfl⟩

theorem holds (hl : P.Holds l) : P'.Holds l := hl.of_eq h.freeList h.next

end

end Within

/-- `P'` comes from `P`: the clients own the nodes `l` now, besides the nodes `L`, which have not
changed. -/
structure Beside (P : Pool ν) (L l : List Nat) (P' : Pool ν) : Prop where
  holds : P'.Holds (l ++ L)
  same : ∀ a ∈ L, P'.node a = P.node a

namespace Beside

variable {L : List Nat}

theorem refl (h : P.Holds (l ++ L)) : P.Beside L l P := ⟨h, fun _ _ => rfl⟩

section

variable (h : P.Beside L l P')
include h

theorem perm (hl : l.Perm l') : P.Beside L l' P' := ⟨h.holds.perm (hl.append_right L), h.same⟩

theorem nodup : l.Nodup := (nodup_append.1 h.holds.nodup_owned).1

theorem not_mem (ha : a ∈ l) : a ∉ L := fun hmem =>
  (nodup_append.1 h.holds.nodup_owned).2.2 a ha a hmem rfl

theorem within (hw : Within g S P' P'') (hS : ∀ a ∈ S, a ∈ l) : P.Beside L l P'' :=
  ⟨hw.holds h.holds, fun a ha => (hw.same a fun hmem => h.not_mem (hS a hmem) ha).trans
  (h.same a ha)⟩

theorem modify (ha : a ∈ l) (f : ν → ν) : P.Beside L l (P'.modify a f) :=
  ⟨h.holds.of_eq rfl rfl, fun b hb =>
    (node_modify_ne fun heq : b = a => h.not_mem ha (heq ▸ hb)).trans (h.same b hb)⟩

theorem getNode : P.Beside L (P'.getNode.1 :: l) P'.getNode.2 :=
  ⟨h.holds.getNode, fun b hb => (congrFun node_getNode b).trans (h.same b hb)⟩

end

theorem returnNode (h : P.Beside L (a :: l) P') : P.Beside L l (P'.returnNode link a) :=
  ⟨h.holds.returnNode, fun b hb =>
    (node_returnNode_ne fun heq : b = a => h.not_mem mem_cons_self (heq ▸ hb)).trans (h.same b hb)⟩

end Beside

end Within

/-! ## Structures that share a pool -/

section World

variable {χ : Type*} {foot : χ → List Nat} {Rep : Pool ν → χ → Prop} {s s' : List χ}

/-- The structures `s`, with the nodes `foot` and the representation `Rep`. -/
structure World (foot : χ → List Nat) (Rep : Pool ν → χ → Prop) (P : Pool ν) (s : List χ) :
    Prop where
  holds : P.Holds (s.flatMap foot)
  rep : ∀ x ∈ s, Rep P x

theorem World.perm (h : World foot Rep P s) (hs : s.Perm s') : World foot Rep P s' :=
  ⟨h.holds.perm (hs.flatMap_right foot), fun x hx => h.rep x (hs.mem_iff.2 hx)⟩

/-- The structures `t` have become one, and nothing has changed in the nodes of `s`. -/
theorem World.change {y : χ} (t : List χ) (h : World foot Rep P (t ++ s))
    (hframe : ∀ x, Rep P x → (∀ a ∈ foot x, P'.node a = P.node a) → Rep P' x)
    (hb : P.Beside (s.flatMap foot) (foot y) P') (hrep : Rep P' y) :
    World foot Rep P' (y :: s) := by
  refine ⟨hb.holds, fun x hx => ?_⟩
  rcases mem_cons.1 hx with rfl | hx
  · exact hrep
  · exact hframe x (h.rep x (mem_append_right _ hx)) fun a ha =>
      hb.same a (mem_flatMap.2 ⟨x, hx, ha⟩)

end World

end Pool

section

variable {α β : Type*}

/-- One of the structures is taken first. -/
theorem exists_perm_cons {x : α} {s : List α} (h : x ∈ s) : ∃ r, s.Perm (x :: r) := by
  obtain ⟨s1, s2, rfl⟩ := append_of_mem h
  exact ⟨s1 ++ s2, perm_middle⟩

/-- The number of all elements of structures that come with the lists of their own. -/
def elemCount (s : List (α × List β)) : Nat := (s.map fun x => x.2.length).sum

theorem elemCount_perm {s s' : List (α × List β)} (h : s.Perm s') : elemCount s = elemCount s' :=
  (h.map _).sum_nat

end

end CLangProject

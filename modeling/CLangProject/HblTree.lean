import CLangProject.HeightTree

/-!
# The height-balanced tree of `ch3/h_bl_tree.c`

`insert` and `delete` are those of `Method`, with the loop of `HeightTree`.
Whatever the calls, the tree follows the dictionary and is `HeightBalanced`
(`heightBalanced_follows`).
-/

namespace CLangProject.HblTree

open LeafTree HeightTree

variable {κ ο : Type}

/-! ## What is to be shown -/

/-- The number of edges on the longest path. -/
def levels : LeafTree Int κ ο → Nat
  | leaf _ _ _ => 0
  | node _ _ l r => max (levels l) (levels r) + 1

/-- The height field of every node is its height. -/
def ExactHeights : LeafTree Int κ ο → Prop
  | leaf h _ _ => h = 0
  | node h k l r => h = levels (node h k l r) ∧ ExactHeights l ∧ ExactHeights r

/-- The heights of the children of a node differ by at most one. -/
def EvenHeights : LeafTree Int κ ο → Prop
  | leaf _ _ _ => True
  | node _ _ l r => levels l ≤ levels r + 1 ∧ levels r ≤ levels l + 1 ∧
      EvenHeights l ∧ EvenHeights r

theorem avl_iff {t : LeafTree Int κ ο} {n : Nat} :
    Avl t n ↔ ExactHeights t ∧ EvenHeights t ∧ n = levels t := by
  induction t generalizing n with
  | leaf h k o => simp [Avl, ExactHeights, EvenHeights, levels, and_comm]
  | node h k l r ihl ihr =>
    simp only [Avl, ihl, ihr, ExactHeights, EvenHeights, levels]
    constructor
    · rintro ⟨rfl, a, b, ⟨hl, hl', rfl⟩, ⟨hr, hr', rfl⟩, hab, hba, rfl⟩
      exact ⟨⟨rfl, hl, hr⟩, ⟨hab, hba, hl', hr'⟩, rfl⟩
    · rintro ⟨⟨hh, hl, hr⟩, ⟨hab, hba, hl', hr'⟩, rfl⟩
      exact ⟨hh, _, _, ⟨hl, hl', rfl⟩, ⟨hr, hr', rfl⟩, hab, hba, rfl⟩

variable [LinearOrder κ]

structure HeightBalanced (t : LeafTree Int κ ο) : Prop where
  search : t.Search
  exact : ExactHeights t
  even : EvenHeights t

theorem heightBalanced_of {t : LeafTree Int κ ο} (h : t.Search ∧ ∃ n, Avl t n) :
    HeightBalanced t := by
  obtain ⟨hs, n, hn⟩ := h
  obtain ⟨hx, he, -⟩ := avl_iff.1 hn
  exact ⟨hs, hx, he⟩

/-! ## The code -/

def find (t : Root Int κ ο) (k : κ) : Option ο := t.find k

/-- `insert`: a new leaf has the height 0 and its parent the height 1. -/
def insert (t : Root Int κ ο) (k : κ) (o : ο) : Option (Root Int κ ο × Int) :=
  plain.method.insert t k o

def delete (t : Root Int κ ο) (k : κ) : Option (Root Int κ ο × Option ο) := plain.method.delete t k

def store : Store (Root Int κ ο) κ ο where
  insert := insert
  delete := delete
  find t k := some (find t k)

/-! ## Runs -/

/-- Every call leaves a height-balanced tree, and a call that finds the key
present, or absent, leaves the tree as it was. -/
def Good (t : Root Int κ ο) (a : Answer ο) (t' : Root Int κ ο) : Prop :=
  (∀ s ∈ t', HeightBalanced s) ∧ (a.Refused → t' = t)

/-- Every run of the tree, starting from the empty one, follows the
dictionary. -/
theorem heightBalanced_follows (cs : List (Call Key ο)) :
    store.Follows Good none Dict.empty cs := by
  refine Store.Follows.mono (S := store) (fun t a t' h => ?_)
    (Method.follows (plain_lawful (le_of_eq card_key)) cs)
  exact ⟨fun s hs => heightBalanced_of (h.1 s hs), h.2⟩

end CLangProject.HblTree

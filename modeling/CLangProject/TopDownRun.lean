import CLangProject.TopDownInsert
import CLangProject.TopDownDelete

/-!
# Runs of the top-down red-black tree

The tree follows the dictionary, and stays red-black, exactly on the runs in
which no `delete` meets a tree described by `Crashes` (`follows_iff_avoids`).
-/

namespace CLangProject.TopDown

open LeafTree

variable {κ ο : Type} [LinearOrder κ]

/-- The functions of the source as a store; `none` is the tree of
`create_tree`. -/
def store : Store (Root Color κ ο) κ ο where
  insert := insert
  delete := delete
  find t k := some (find t k)

/-- The call is a `delete` that follows a NULL pointer. -/
def BadCall (t : Root Color κ ο) : Call κ ο → Prop
  | .insert _ _ => False
  | .delete k => Crashes t k

instance (t : Root Color κ ο) : (c : Call κ ο) → Decidable (BadCall t c)
  | .insert _ _ => inferInstanceAs (Decidable False)
  | .delete k => inferInstanceAs (Decidable (Crashes t k))

/-- `upper->right->left` of a leaf on the right is its object, so the test for
a leaf fails and the colour of a missing child is read. -/
theorem Crashes.delete_eq_none {t : Root Color κ ο} {k : κ} (h : Crashes t k) :
    delete t k = none := by
  match t, h with
  | some (node c k' l (leaf c' k1 o)), ⟨hl, hc', hk⟩ =>
    have hc' : c' = .black := hc'
    have htoward : toward k k' = .right := toward_eq_iff.2 hk
    have hstart : start k (node c k' l (leaf c' k1 o)) = none := by
      simp [start, paint, tagAt, sub, child, hl, hc', key, htoward, prepare, nearIsLeaf, leftIsNull]
    simp [delete, hstart]

/-- One call outside of `BadCall`. -/
theorem step_ok {t : Root Color κ ο} {m : Dict κ ο} (c : Call κ ο)
    (h : t.RedBlack ∧ Holds t.entries m) (hc : ¬ BadCall t c) :
    ∃ t', store.step t c = some (t', (m.step c).2) ∧ t'.RedBlack ∧
      t'.RedBlack ∧ Holds t'.entries (m.step c).1 := by
  obtain ⟨hrb, hm⟩ := h
  cases c with
  | insert k o =>
    obtain ⟨t', r, hins, hrb', hspec⟩ := insert_spec t hrb k o
    obtain ⟨ha, hm'⟩ := hspec.step hm
    exact ⟨t', by simp [Store.step, store, hins, ha], hrb', hrb', hm'⟩
  | delete k =>
    obtain ⟨t', r, hdel, hrb', hspec⟩ := delete_spec t hrb k hc
    obtain ⟨ha, hm'⟩ := hspec.step hm
    exact ⟨t', by simp [Store.step, store, hdel, ha], hrb', hrb', hm'⟩

/-- Starting from the empty tree, every call returns what the dictionary
returns and leaves a red-black tree that shows the dictionary, if and only if
no `delete` of the run meets a root with two black children of which the right
one is a leaf and is where the key is searched. -/
theorem follows_iff_avoids (cs : List (Call κ ο)) :
    store.Follows (fun _ _ t' => t'.RedBlack) none Dict.empty cs ↔
      store.Avoids BadCall (none : Root Color κ ο) cs := by
  refine Store.follows_iff (R := fun t m => t.RedBlack ∧ Holds t.entries m)
    (fun t m h k => ?_) (fun t m c h hc => step_ok c h hc) (fun t c hc => ?_) ⟨trivial, holds_nil⟩
  · exact congrArg some (h.1.search.find_eq h.2 k)
  · cases c with
    | insert k o => exact hc.elim
    | delete k => simp [Store.step, store, Crashes.delete_eq_none hc]

/-- Three insertions that leave a root with black children, the right one a
leaf with the key 2. -/
def threeKeys : List (Call Int Nat) := [.insert 1 10, .insert 2 20, .insert 0 30]

theorem follows_delete_zero :
    store.Avoids BadCall (none : Root Color Int Nat) (threeKeys ++ [.delete 0, .delete 1]) ∧
      store.Follows (fun _ _ t' => t'.RedBlack) none Dict.empty
        (threeKeys ++ [.delete 0, .delete 1]) :=
  ⟨by decide, (follows_iff_avoids (threeKeys ++ [.delete 0, .delete 1])).2 (by decide)⟩

theorem not_follows_delete_two :
    ¬ store.Follows (fun _ _ t' => t'.RedBlack) none Dict.empty (threeKeys ++ [.delete 2]) :=
  fun h => h.run_ne_none (by decide)

end CLangProject.TopDown

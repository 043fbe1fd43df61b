import CLangProject.LeafContext
import CLangProject.StackLoop

/-!
# Leaf trees without balance

`triv_tree.c` inserts and deletes without any balancing. A tree from which the last entry has been
deleted is its root, a node with the key of that entry whose object is NULL.

`interval_find` prunes by the keys of the interior nodes and keeps the subtrees that it still has to
visit in an array of 200 entries. It does not notice that a tree has been emptied, and the array is
too short for some deep trees. The counts of nodes taken and returned, which `main` prints, are left
out.
-/

namespace CLangProject.TrivTree

open LeafTree List

variable {κ ο : Type} [LinearOrder κ]

/-- The nodes of a tree; a leaf without an object is the root of an empty one. -/
abbrev Tree (κ ο : Type) := LeafTree Unit κ (Option ο)

/-- `tree->left == NULL` -/
def isEmpty : Tree κ ο → Bool
  | leaf _ _ none => true
  | _ => false

def insert (tree : Tree κ ο) (newKey : κ) (newObject : ο) : Tree κ ο × Int :=
  if isEmpty tree then (leaf () newKey (some newObject), 0)
  else
    match descend newKey tree [] with
    | (leaf _ k o, above) =>
      if k = newKey then (tree, -1)
      else
        let oldLeaf := leaf () k o
        let newLeaf := leaf () newKey (some newObject)
        (plug above (if k < newKey then node () newKey oldLeaf newLeaf
          else node () k newLeaf oldLeaf), 0)
    | _ => (tree, -1)

def delete (tree : Tree κ ο) (deleteKey : κ) : Tree κ ο × Option ο :=
  if isEmpty tree then (tree, none)
  else
    match descend deleteKey tree [] with
    | (leaf _ k o, []) => if k = deleteKey then (leaf () k none, o) else (tree, none)
    | (leaf _ k o, upper :: above) =>
      if k ≠ deleteKey then (tree, none) else (plug above upper.other, o)
    | _ => (tree, none)

/-- One round of `interval_find`, with the list of results. -/
def visit (a b : κ) (result : List (κ × Option ο)) :
    Tree κ ο → Option (List (κ × Option ο) × List (Tree κ ο))
  | leaf _ k o => some (if a ≤ k ∧ k < b then (k, o) :: result else result, [])
  | node _ k l r => some (result, if b ≤ k then [l] else if k ≤ a then [r] else [r, l])

def intervalFind (fuel : Nat) (tree : Tree κ ο) (a b : κ) : Option (List (κ × Option ο)) :=
  stackLoop (visit a b) 200 fuel [tree] []

/-! ## Reachable trees -/

/-- The trees after the first insertion, with what is stored in them. -/
inductive Reached : Tree κ ο → Dict κ (Option ο) → Prop
  | first (k : κ) (o : ο) : Reached (leaf () k (some o)) (Dict.empty.step (.insert k (some o))).1
  | insert {t : Tree κ ο} {m : Dict κ (Option ο)} (h : Reached t m) (k : κ) (o : ο) :
    Reached (insert t k o).1 (m.step (.insert k (some o))).1
  | delete {t : Tree κ ο} {m : Dict κ (Option ο)} (h : Reached t m) (k : κ) :
    Reached (delete t k).1 (m.step (.delete k)).1

/-- A tree with its entries, none of them NULL, or an empty one. -/
inductive Stores : Tree κ ο → Dict κ (Option ο) → Prop
  | full {t : Tree κ ο} {m : Dict κ (Option ο)} (hs : t.Search) (hm : Holds t.toList m)
      (ho : ∀ k, m k ≠ some none) : Stores t m
  | emptied {m : Dict κ (Option ο)} (k : κ) (hm : Holds [] m) : Stores (leaf () k none) m

variable {t : Tree κ ο} {m : Dict κ (Option ο)} {a b : κ}

omit [LinearOrder κ] in
theorem isEmpty_eq (hm : Holds t.toList m) (ho : ∀ k, m k ≠ some none) : isEmpty t = false := by
  cases t with
  | node => rfl
  | leaf c k o =>
    cases o with
    | some => rfl
    | none => exact absurd ((hm k none).1 mem_cons_self) (ho k)

theorem objects_insert (ho : ∀ k, m k ≠ some none) (k k' : κ) (o : ο) :
    (m.step (.insert k (some o))).1 k' ≠ some none := by
  by_cases hk : (m k).isSome
  · simpa [Dict.step, hk] using ho k'
  · by_cases heq : k' = k <;> simp [Dict.step, hk, heq, ho k']

theorem stores_leaf (hm : Holds [] m) (k : κ) (o : ο) :
    Stores (leaf () k (some o)) (m.step (.insert k (some o))).1 :=
  .full trivial (Inserted.step (r := 0) ⟨by simp, by simp [toList]⟩ hm).2
    (objects_insert (fun k' hk' => not_mem_nil ((hm k' none).2 hk')) k · o)

theorem Stores.insert (h : Stores t m) (k : κ) (o : ο) :
    Stores (TrivTree.insert t k o).1 (m.step (.insert k (some o))).1 := by
  cases h with
  | emptied k' hm => exact stores_leaf hm k o
  | full hs hm ho =>
    obtain ⟨c, k', o', above, hd⟩ := descend_eq k t []
    have hplaced := (hs.placed k).descend
    simp only [TrivTree.insert, isEmpty_eq hm ho, hd] at hplaced ⊢
    by_cases hk : k' = k
    · subst hk
      have hin := (hm k' o').1 (hplaced.mem_iff.2 mem_cons_self)
      simpa [Dict.step, hin] using Stores.full hs hm ho
    · have hsplit : Search (if k' < k then node () k (leaf () k' o') (leaf () k (some o))
          else node () k' (leaf () k (some o)) (leaf () k' o')) := .of_split hk rfl
      obtain ⟨hs', hins⟩ := hplaced.inserted hk hsplit fun p =>
        (mem_of_split rfl p).trans (by rw [toList, mem_singleton])
      simpa [hk] using Stores.full hs' (hins.step hm).2 (objects_insert ho k · o)

theorem Stores.delete (h : Stores t m) (k : κ) :
    Stores (TrivTree.delete t k).1 (m.step (.delete k)).1 := by
  cases h with
  | emptied k' hm => exact .emptied k' (Deleted.step (.of_absent (by simp)) hm).2
  | full hs hm ho =>
    have ho' : ∀ k', (m.step (.delete k)).1 k' ≠ some none := fun k' => by
      by_cases heq : k' = k <;> simp [Dict.step, heq, ho k']
    obtain ⟨c, k', o', above, hd⟩ := descend_eq k t []
    have hplaced := (hs.placed k).descend
    have hplug : plug (descend k t []).2 (descend k t []).1 = t := plug_descend k t []
    simp only [TrivTree.delete, isEmpty_eq hm ho, hd] at hplaced hplug ⊢
    by_cases hk : k' = k
    · subst hk
      cases above with
      | nil =>
        subst hplug
        simpa using Stores.emptied k' (Deleted.only.step hm).2
      | cons upper above =>
        obtain ⟨hs', hdel⟩ := hplaced.deleted
        simpa using Stores.full hs' (hdel.step hm).2 ho'
    · have hdel := (Deleted.of_absent (hplaced.absent hk)).step hm
      cases above <;> simpa [hk] using Stores.full hs hdel.2 ho'

theorem Reached.stores (h : Reached t m) : Stores t m := by
  induction h with
  | first k o => exact stores_leaf holds_nil k o
  | insert h k o ih => exact ih.insert k o
  | delete h k ih => exact ih.delete k

/-! ## Queries -/

/-- The number of places that the search takes on the stack. -/
def load (a b : κ) : Tree κ ο → Nat
  | leaf _ _ _ => 1
  | node _ k l r =>
    if b ≤ k then load a b l
    else if k ≤ a then load a b r
    else max (load a b r + 1) (load a b l)

def inside (a b : κ) (t : Tree κ ο) : List (κ × Option ο) :=
  t.toList.filter fun p => a ≤ p.1 ∧ p.1 < b

theorem load_pos (a b : κ) (t : Tree κ ο) : 0 < load a b t := by
  induction t with
  | leaf => exact Nat.one_pos
  | node c k l r ihl ihr =>
    rw [load]
    split_ifs
    exacts [ihl, ihr, by omega]

theorem works_iff (hs : t.Search) {n : Nat} (hn : n < 200) {acc acc' : List (κ × Option ο)} :
    Works (visit a b) 200 [t] n acc acc' ↔ n + load a b t ≤ 200 ∧ acc' = inside a b t ++ acc := by
  induction t generalizing n acc acc' with
  | leaf c k o =>
    have hroom : n + 1 ≤ 200 := hn
    rw [works_one rfl]
    by_cases hin : a ≤ k ∧ k < b <;> simp [load, inside, toList, hin, hroom, hn.le]
  | node c k l r ihl ihr =>
    obtain ⟨hl, hr, hsl, hsr⟩ := hs
    have hsplit : inside a b (node c k l r) = inside a b l ++ inside a b r := filter_append ..
    rw [works_one rfl, hsplit, load]
    split_ifs with hb ha
    · have hnone : inside a b r = [] := filter_eq_nil_iff.2 fun p hp => by simp [hb.trans (hr p hp)]
      rw [hnone, append_nil, ihl hsl hn, length_singleton, and_iff_right (Nat.succ_le_of_lt hn)]
    · have hnone : inside a b l = [] :=
        filter_eq_nil_iff.2 fun p hp => by simp [((hl p hp).trans_le ha).not_ge]
      rw [hnone, nil_append, ihr hsr hn, length_singleton, and_iff_right (Nat.succ_le_of_lt hn)]
    · have hpos := load_pos a b r
      by_cases hroom : n + 1 < 200
      · rw [works_cons]
        simp only [length_singleton, ihr hsr hroom, ihl hsl hn]
        rw [append_assoc, length_cons, length_singleton]
        constructor
        · rintro ⟨-, s1, ⟨hr', rfl⟩, hl', rfl⟩
          exact ⟨by omega, rfl⟩
        · rintro ⟨hmax, rfl⟩
          exact ⟨by omega, _, ⟨by omega, rfl⟩, by omega, rfl⟩
      · exact iff_of_false (by simp; omega) (by omega)

/-- The result is the list of what is stored in the interval, in increasing order. -/
def Exactly (m : Dict κ (Option ο)) (a b : κ) (result : List (κ × Option ο)) : Prop :=
  result.Pairwise (·.1 < ·.1) ∧ ∀ p, p ∈ result ↔ m p.1 = some p.2 ∧ a ≤ p.1 ∧ p.1 < b

theorem intervalFind_iff (h : Reached t m) (a b : κ) :
    (∃ result, Ends (intervalFind · t a b) result ∧ Exactly m a b result) ↔
    load a b t ≤ 200 ∧ ∀ k, t = leaf () k none → ¬ (a ≤ k ∧ k < b) := by
  have hs : t.Search := by
    cases h.stores with
    | full hs => exact hs
    | emptied => trivial
  simp only [intervalFind, ends_stackLoop, works_iff hs (Nat.zero_lt_succ 199), Nat.zero_add,
    append_nil, and_assoc, exists_and_left, exists_eq_left]
  refine and_congr_right fun _ => ?_
  cases h.stores with
  | full hs hm ho =>
    refine iff_of_true ⟨hs.increasing.filter _, fun p => ?_⟩ fun k hk => ?_
    · simp [inside, ← hm p.1 p.2]
    · subst hk
      exact absurd ((hm k none).1 mem_cons_self) (ho k)
  | emptied k hm =>
    have hnone : ∀ p : κ × Option ο, m p.1 ≠ some p.2 := fun p hp => not_mem_nil ((hm _ _).2 hp)
    by_cases hin : a ≤ k ∧ k < b
    · simp [Exactly, hnone, inside, toList, hin]
    · simp only [Exactly, hnone, inside, toList, hin, filter_singleton, decide_false]
      simpa using hin

theorem intervalFind_one : ∃ result,
    Ends (intervalFind · (leaf () 5 (some 7) : Tree Int Nat) 5 6) result ∧
      Exactly (Dict.empty.step (.insert 5 (some 7))).1 5 6 result :=
  (intervalFind_iff (.first 5 7) 5 6).2 ⟨by decide, by simp⟩

/-- After its only entry has been deleted, a tree still answers with the key of that entry. -/
theorem intervalFind_emptied : ∃ (t : Tree Int Nat) (m : _), Reached t m ∧
    ¬ ∃ result, Ends (intervalFind · t 5 6) result ∧ Exactly m 5 6 result := by
  refine ⟨_, _, .delete (.first 5 7) 5, ?_⟩
  rintro ⟨result, hends, -, hmem⟩
  obtain rfl : result = [(5, none)] :=
    hends.unique (ends_stackLoop.2 (.cons rfl (by decide) (.nil _ _) (.nil _ _)))
  simpa [Dict.step] using (hmem (5, none)).1 mem_cons_self

end CLangProject.TrivTree

import CLangProject.LeafContext

/-!
# Dictionaries in leaf trees, balanced bottom-up

The usual way to keep a dictionary in a balanced leaf tree: search for the
leaf, keeping the nodes on the way on a stack; make the leaf a node with two
leaves, or replace its parent by its sibling; then go up the stack and restore
the balance. A `Method` consists of the tags of the new nodes and of the loop
that goes up.

Such a tree follows the dictionary if the loop restores the invariant after
either change, without touching entries or order (`Method.Lawful`,
`Method.step_ok`). A tree may have no room for a new key; then this is asked of
insertions into the other trees only.
-/

namespace CLangProject

open LeafTree

variable {τ κ ο : Type}

structure Method (τ κ ο : Type) where
  /-- The size of the stack. -/
  limit : Nat
  /-- The tag of the first leaf. -/
  first : τ
  /-- The tag of the two leaves that a leaf with the given tag is split into. -/
  split : τ → τ
  /-- The tag of the node that such a leaf becomes. -/
  grow : τ → τ
  /-- Go up the stack from a new subtree. -/
  rebalance : Context τ κ ο → LeafTree τ κ ο → Option (LeafTree τ κ ο)

namespace Method

section Code

variable [LinearOrder κ] (M : Method τ κ ο)

/-- A leaf with the tag `c` and the entry `(k', o')` becomes a node with that
entry and the new one `(k, o)`. -/
def splitLeaf (c : τ) (k' : κ) (o' : ο) (k : κ) (o : ο) : LeafTree τ κ ο :=
  let oldLeaf := leaf (M.split c) k' o'
  let newLeaf := leaf (M.split c) k o
  if k' < k then node (M.grow c) k oldLeaf newLeaf else node (M.grow c) k' newLeaf oldLeaf

/-- The tree after an insertion and the value returned; no result when the
stack overflows or the loop has none. -/
def insert : Root τ κ ο → κ → ο → Option (Root τ κ ο × Int)
  | none, k, o => some (some (leaf M.first k o), 0)
  | some t, k, o =>
    match descend k t [] with
    | (leaf c k' o', stack) =>
      if M.limit < stack.length then none
      else if k' = k then some (some t, -1)
      else (M.rebalance stack (M.splitLeaf c k' o' k o)).map fun t => (some t, 0)
    | (node _ _ _ _, _) => none

/-- The tree after a deletion and the object returned. -/
def delete : Root τ κ ο → κ → Option (Root τ κ ο × Option ο)
  | none, _ => some (none, none)
  | some (leaf c k' o), k => if k' = k then some (none, some o) else some (some (leaf c k' o), none)
  | some (node c k' l r), k =>
    match descend k (node c k' l r) [] with
    | (leaf c' k'' o, upper :: stack) =>
      if M.limit < (upper :: stack).length then none
      else if k'' ≠ k then
        -- the loop is run also when there is nothing to delete
        (M.rebalance stack (upper.fill (leaf c' k'' o))).map fun t => (some t, none)
      else (M.rebalance stack upper.other).map fun t => (some t, some o)
    | _ => none

def store : Store (Root τ κ ο) κ ο where
  insert := M.insert
  delete := M.delete
  find t k := some (t.find k)

end Code

variable [LinearOrder κ]

/-- The loop restores the invariant `Inv`, after an insertion if the tree had
`Room`, and a tree that satisfies it is not higher than the stack. -/
structure Lawful (M : Method τ κ ο) (Inv Room : LeafTree τ κ ο → Prop) : Prop where
  stack : ∀ {t} k, Inv t → t.Search → (descend k t []).2.length ≤ M.limit
  first : ∀ k o, Inv (leaf M.first k o)
  insert : ∀ {fs c k' o'} k o, Inv (plug fs (leaf c k' o')) → Room (plug fs (leaf c k' o')) →
    ∃ t, M.rebalance fs (M.splitLeaf c k' o' k o) = some t ∧ Inv t ∧
      Keeps (plug fs (M.splitLeaf c k' o' k o)) t
  delete : ∀ {f fs c k o}, Inv (plug (f :: fs) (leaf c k o)) →
    ∃ t, M.rebalance fs f.other = some t ∧ Inv t ∧ Keeps (plug fs f.other) t
  idle : ∀ {f fs c k o}, Inv (plug (f :: fs) (leaf c k o)) →
    M.rebalance fs (f.fill (leaf c k o)) = some (plug (f :: fs) (leaf c k o))

/-- An insertion of a new key into a tree without room for it. -/
def Crowded (Room : LeafTree τ κ ο → Prop) (t : Root τ κ ο) : Call κ ο → Prop
  | .insert k _ => t.find k = none ∧ ∃ s ∈ t, ¬ Room s
  | .delete _ => False

variable {M : Method τ κ ο} {Inv Room : LeafTree τ κ ο → Prop}

variable {k k' : κ} {o o' : ο} {c : τ}

theorem splitLeaf_search (hk : k' ≠ k) : (M.splitLeaf c k' o' k o).Search := .of_split hk rfl

theorem mem_splitLeaf (p : κ × ο) :
    p ∈ (M.splitLeaf c k' o' k o).toList ↔ p ∈ (leaf c k' o').toList ∨ p = (k, o) :=
  (mem_of_split rfl p).trans (by rw [toList, List.mem_singleton])

/-- An insertion leaves the tree as it is or goes up from the split leaf. -/
theorem insert_cases {t : LeafTree τ κ ο} {t' : Root τ κ ο} {r : Int}
    (h : M.insert (some t) k o = some (t', r)) : t' = some t ∨
      ∃ c k' o' stack s, descend k t [] = (leaf c k' o', stack) ∧ k' ≠ k ∧
        M.rebalance stack (M.splitLeaf c k' o' k o) = some s ∧ t' = some s := by
  obtain ⟨c, k', o', stack, hd⟩ := descend_eq k t []
  simp only [insert, hd] at h
  split at h
  · cases h
  split at h
  · cases h
    exact .inl rfl
  case isFalse hk =>
    obtain ⟨s, hs, heq⟩ := Option.map_eq_some_iff.1 h
    cases heq
    exact .inr ⟨c, k', o', stack, s, hd, hk, hs, rfl⟩

/-- The states of the store: a possibly empty tree, in search order and with
the invariant. -/
def Sound (Inv : LeafTree τ κ ο → Prop) (t : Root τ κ ο) : Prop := ∀ s ∈ t, s.Search ∧ Inv s

theorem insert_ok (hM : M.Lawful Inv Room) (t : Root τ κ ο) (ht : Sound Inv t) (k : κ) (o : ο)
    (hroom : t.find k = none → ∀ s ∈ t, Room s) :
    ∃ t' r, M.insert t k o = some (t', r) ∧ Sound Inv t' ∧
      Inserted t.entries k o t'.entries r ∧ (r = -1 → t' = t) := by
  cases t with
  | none =>
    refine ⟨some (leaf M.first k o), 0, rfl, ?_, ⟨?_, ?_⟩, by simp⟩
    · rintro s ⟨⟩
      exact ⟨trivial, hM.first k o⟩
    · simp [Root.entries]
    · simp [Root.entries, toList]
  | some t =>
    obtain ⟨hs, hinv⟩ := ht t rfl
    obtain ⟨c, k', o', stack, hd⟩ := descend_eq k t []
    have hplaced := (hs.placed k).descend
    have hplug : plug (descend k t []).2 (descend k t []).1 = t := plug_descend k t []
    have hlen := not_lt_of_ge (hM.stack k hinv hs)
    rw [hd] at hplaced hlen hplug
    by_cases hk : k' = k
    · subst hk
      refine ⟨some t, -1, by simp [insert, hd, hlen], ht, ⟨fun _ => ⟨rfl, fun _ => Iff.rfl⟩,
        fun hn => ?_⟩, fun _ => rfl⟩
      exact absurd (hplaced.mem_iff.2 (by simp [toList])) (hn o')
    · have hnone : findIn k t = none := Option.eq_none_iff_forall_ne_some.2 fun x hx =>
        hplaced.absent hk x (hs.findIn_eq_some.1 hx)
      have hroom := hroom hnone t rfl
      rw [← hplug] at hinv hroom
      obtain ⟨t', ht', hinv', hkeep, hsearch⟩ := hM.insert k o hinv hroom
      obtain ⟨hs', hins⟩ :=
        hplaced.inserted hk (splitLeaf_search (M := M) (c := c) hk) mem_splitLeaf
      refine ⟨some t', 0, ?_, ?_, hins.congr hkeep, by simp⟩
      · simp only [insert, hd, if_neg hlen, if_neg hk, ht', Option.map_some]
      · rintro s ⟨⟩
        exact ⟨hsearch hs', hinv'⟩

theorem delete_ok (hM : M.Lawful Inv Room) (t : Root τ κ ο) (ht : Sound Inv t) (k : κ) :
    ∃ t' r, M.delete t k = some (t', r) ∧ Sound Inv t' ∧
      Deleted t.entries k t'.entries r ∧ (r = none → t' = t) := by
  match t, ht with
  | none, ht => exact ⟨none, none, rfl, ht, .of_absent (by simp [Root.entries]), fun _ => rfl⟩
  | some (leaf c k' o), ht =>
    by_cases hk : k' = k
    · subst hk
      exact ⟨none, some o, by simp [delete], by simp [Sound], .only, by simp⟩
    · exact ⟨_, none, by simp [delete, hk], ht,
        .of_absent (by simp [Root.entries, toList, Ne.symm hk]), fun _ => rfl⟩
  | some (node c0 k0 l r), ht =>
    obtain ⟨hs, hinv⟩ := ht _ rfl
    obtain ⟨c, k', o, stack, hd⟩ := descend_eq k (node c0 k0 l r) []
    have hplaced := (hs.placed k).descend
    have hplug := plug_descend k (node c0 k0 l r) []
    have hlen := not_lt_of_ge (hM.stack k hinv hs)
    rw [hd] at hplaced hlen hplug
    cases stack with
    | nil => cases hplug
    | cons upper stack =>
      have hinv : Inv (plug (upper :: stack) (leaf c k' o)) := hplug ▸ hinv
      by_cases hk : k' = k
      · subst hk
        obtain ⟨t', ht', hinv', hkeep, hsearch⟩ := hM.delete hinv
        obtain ⟨hs', hdel⟩ := hplaced.deleted
        refine ⟨some t', some o, ?_, ?_, hdel.congr hkeep, by simp⟩
        · simp only [delete, hd, if_neg hlen, ne_eq, not_true_eq_false, if_false, ht',
            Option.map_some]
        · rintro s ⟨⟩
          exact ⟨hsearch hs', hinv'⟩
      · refine ⟨some (node c0 k0 l r), none, ?_, ht, .of_absent (hplaced.absent hk), fun _ => rfl⟩
        have hidle : M.rebalance stack (upper.fill (leaf c k' o)) = some (node c0 k0 l r) :=
          (hM.idle hinv).trans (congrArg some hplug)
        simp only [delete, hd, if_neg hlen, ne_eq, if_pos hk, hidle, Option.map_some]

/-- Every call leaves a tree in search order and with the invariant, and a
call that finds the key present, or absent, leaves the tree as it was. -/
def Good (Inv : LeafTree τ κ ο → Prop) (t : Root τ κ ο) (a : Answer ο) (t' : Root τ κ ο) : Prop :=
  Sound Inv t' ∧ (a.Refused → t' = t)

theorem step_ok (hM : M.Lawful Inv Room) {t : Root τ κ ο} {m : Dict κ ο} (c : Call κ ο)
    (h : Sound Inv t ∧ Holds t.entries m) (hc : ¬ Crowded Room t c) :
    ∃ t', M.store.step t c = some (t', (m.step c).2) ∧ Good Inv t (m.step c).2 t' ∧
      Sound Inv t' ∧ Holds t'.entries (m.step c).1 := by
  obtain ⟨hs, hm⟩ := h
  cases c with
  | insert k o =>
    obtain ⟨t', r, hins, hs', hspec, hsame⟩ := insert_ok hM t hs k o fun hk s hst =>
      not_not.1 fun hroom => hc ⟨hk, s, hst, hroom⟩
    obtain ⟨ha, hm'⟩ := hspec.step hm
    exact ⟨t', by simp [Store.step, store, hins, ha], ⟨hs', by rw [ha]; exact hsame⟩, hs', hm'⟩
  | delete k =>
    obtain ⟨t', r, hdel, hs', hspec, hsame⟩ := delete_ok hM t hs k
    obtain ⟨ha, hm'⟩ := hspec.step hm
    exact ⟨t', by simp [Store.step, store, hdel, ha], ⟨hs', by rw [ha]; exact hsame⟩, hs', hm'⟩

theorem shows_of (t : Root τ κ ο) (m : Dict κ ο) (h : Sound Inv t ∧ Holds t.entries m) :
    M.store.Shows t m := by
  intro k
  refine congrArg some (Root.Search.find_eq ?_ h.2 k)
  cases t with
  | none => trivial
  | some t => exact (h.1 t rfl).1

theorem sound_none : Sound Inv (none : Root τ κ ο) ∧
    Holds (Root.entries (none : Root τ κ ο)) Dict.empty :=
  ⟨by simp [Sound], holds_nil⟩

/-- A tree that always has room. -/
theorem follows (hM : M.Lawful Inv fun _ => True) (cs : List (Call κ ο)) :
    M.store.Follows (Good Inv) none Dict.empty cs := by
  refine Store.follows shows_of (fun t m c h => step_ok hM c h ?_) cs sound_none
  cases c <;> simp [Crowded]

end Method

end CLangProject

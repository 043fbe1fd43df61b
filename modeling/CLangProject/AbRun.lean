import CLangProject.AbDelete
import CLangProject.AbTall
import CLangProject.Key

/-!
# (2,4)-trees: runs

Every run of `insert` and `delete` in which no key is inserted twice keeps the
shape of the tree and does what the calls should do, as long as the tree does
not get higher than the stacks of 20 nodes allow. Keys in decreasing order make
it higher than that.

`find` does not look at the degree of the root block. In an empty tree it compares
the key it looks for with `key[0]`, which `create_tree` never sets and from
which `delete` does not remove the last key.
-/

namespace CLangProject.AbTree

open List Option

variable {κ ο : Type} [LinearOrder κ]

def store (fresh : Node κ ο) : Store (Node κ ο) κ ο where
  insert := insert fresh
  delete := delete
  find := find

/-- The key to be inserted is stored already. -/
def Present (t : Node κ ο) : Call κ ο → Prop
  | .insert k _ => k ∈ t.toList.map Prod.fst
  | .delete _ => False

instance (t : Node κ ο) : (c : Call κ ο) → Decidable (Present t c)
  | .insert k _ => inferInstanceAs (Decidable (k ∈ t.toList.map Prod.fst))
  | .delete _ => inferInstanceAs (Decidable False)

/-- The path to a leaf is longer than `node_stack`. -/
def Tall (t : Node κ ο) (_ : Call κ ο) : Prop := nodeStack < t.height

instance (t : Node κ ο) (c : Call κ ο) : Decidable (Tall t c) :=
  inferInstanceAs (Decidable (nodeStack < t.height))

/-- What a call that returns `a` does to the pairs in the leaves. -/
def Effect (t : Node κ ο) : Call κ ο → Answer ο → Node κ ο → Prop
  | .insert k o, a, t' => a = .inserted 0 ∧ t'.toList.Perm ((k, o) :: t.toList)
  | .delete k, a, t' => a = .deleted (t.toList.lookup k) ∧
      t'.toList = t.toList.filter (·.1 ≠ k) ∧ (a = .deleted none → t' = t)

variable {t fresh : Node κ ο} {m : Dict κ ο}

theorem lookup_eq_some_iff {es : List (κ × ο)} (h : es.Pairwise (·.1 < ·.1)) {k : κ} {o : ο} :
    es.lookup k = some o ↔ (k, o) ∈ es := by
  constructor
  · intro hl
    obtain ⟨l1, l2, rfl, -⟩ := List.lookup_eq_some_iff.1 hl
    simp
  · intro hmem
    obtain ⟨l1, l2, rfl⟩ := append_of_mem hmem
    exact (lookup_middle h).1

/-- One call. -/
theorem step_ok (fresh : Node κ ο) (c : Call κ ο) (h : Whole t ∧ Holds t.toList m)
    (hp : ¬ Present t c) (hh : ¬ Tall t c) : ∃ t' a, (store fresh).step t c = some (t', a) ∧
      (Shape t' ∧ Effect t c a t') ∧ Whole t' ∧ Holds t'.toList (m.step c).1 := by
  obtain ⟨hw, hm⟩ := h
  have hle : t.height ≤ nodeStack := not_lt.1 hh
  cases c with
  | insert k o =>
    have habs : ∀ x, (k, x) ∉ t.toList := fun x hx => hp (mem_map.2 ⟨(k, x), hx, rfl⟩)
    obtain ⟨t', ht', hw', hperm⟩ := insert_ok fresh hw hle habs o
    have hins : Inserted t.toList k o t'.toList 0 :=
      ⟨fun ⟨x, hx⟩ => absurd hx (habs x), fun _ => ⟨rfl, fun p => by
        rw [hperm.mem_iff, mem_cons, or_comm]⟩⟩
    exact ⟨t', .inserted 0, by simp [Store.step, store, ht'], ⟨hw'.shape, rfl, hperm⟩, hw',
      (hins.step hm).2⟩
  | delete k =>
    obtain ⟨t', r, ht', hw', rfl, hlist, hnone⟩ := delete_ok hw hle k
    have hdel : Deleted t.toList k t'.toList (t.toList.lookup k) :=
      ⟨fun o => lookup_eq_some_iff hw.sorted, fun p => by rw [hlist]; simp⟩
    exact ⟨t', .deleted (t.toList.lookup k), by simp [Store.step, store, ht'],
      ⟨hw'.shape, rfl, hlist, fun heq => hnone (Answer.deleted.inj heq)⟩, hw', (hdel.step hm).2⟩

theorem step_tall (c : Call κ ο) (h : Whole t) (hh : Tall t c) : (store fresh).step t c = none := by
  cases c with
  | insert k o => simp [Store.step, store, insert_tall h hh k o]
  | delete k => simp [Store.step, store, delete_tall h hh k]

theorem whole_createTree : Whole (createTree fresh) ∧
    Holds (createTree fresh).toList Dict.empty := by
  have hnil : (createTree fresh).toList = [] := by rw [toList_eq_below]; rfl
  refine ⟨⟨Nat.zero_le _, fun h => absurd h (lt_irrefl 0), Pairwise.nil, fun e he => ?_⟩, ?_⟩
  · cases he
  · rw [hnil]
    exact holds_nil

/-- In a run that inserts no key twice, every call does what it should do and
leaves a tree of the right shape, if and only if no call is made on a tree of
more than 20 levels above the leaves. -/
theorem shape_iff_not_tall (fresh : Node κ ο) (cs : List (Call κ ο))
    (hnew : (store fresh).Avoids Present (createTree fresh) cs) :
    (store fresh).Runs (fun t c a t' => Shape t' ∧ Effect t c a t') (createTree fresh) cs ↔
      (store fresh).Avoids Tall (createTree fresh) cs :=
  Store.runs_iff (R := fun t m => Whole t ∧ Holds t.toList m) (fun _ _ c h => step_ok fresh c h)
    (fun _ _ c h => step_tall c h.1) whole_createTree hnew

/-- A node as `get_node` might return it. -/
def blank : Node Key Nat := ⟨7, 3, fun _ => ⟨0, by decide⟩, fun _ => .object none⟩

def key (n : Nat) : Key := ⟨min n 2147483647, by omega⟩

/-- Five keys, of which the last one splits the root, and deletions that join
the two leaves again. -/
def fiveKeys : List (Call Key Nat) :=
  [.insert (key 5) 50, .insert (key 1) 10, .insert (key 3) 30, .insert (key 7) 70,
    .insert (key 2) 20, .delete (key 7), .delete (key 4), .delete (key 1)]

theorem shape_fiveKeys : (store blank).Runs (fun t c a t' => Shape t' ∧ Effect t c a t')
    (createTree blank) fiveKeys :=
  (shape_iff_not_tall blank fiveKeys (by decide +kernel)).2 (by decide +kernel)

/-! ## Keys in decreasing order -/

/-- Calls that insert the keys from `n - 1` down to 0. -/
def countdown : Nat → List (Call Key Nat)
  | 0 => []
  | n + 1 => .insert (key n) 0 :: countdown n

theorem key_lt {i j : Nat} (hij : i < j) (hj : j ≤ 2147483647) : key i < key j := by
  rw [← Subtype.coe_lt_coe]
  simp only [key]
  omega

/-- A tree that the countdown from `n` can meet. -/
structure Counting (n : Nat) (t : Node Key Nat) : Prop where
  whole : Whole t
  spine : Spine t.height t.entries
  above : ∀ i, i < n → ∀ e ∈ t.toList, key i < e.1

theorem Counting.step {n : Nat} {t : Node Key Nat} (h : Counting (n + 1) t) (hn : n ≤ 2147483647)
    (hh : t.height ≤ nodeStack) : ∃ t', (store blank).step t (.insert (key n) 0) =
      some (t', .inserted 0) ∧ Counting n t' ∧ t'.toList.length = t.toList.length + 1 := by
  obtain ⟨t', ht', hw, hs, hp⟩ :=
    insert_spine blank h.whole h.spine hh (h.above n (Nat.lt_succ_self n)) 0
  refine ⟨t', by simp [Store.step, store, ht'],
    ⟨hw, hs, fun i hi e he => ?_⟩, by simp [hp.length_eq]⟩
  rcases mem_cons.1 (hp.mem_iff.1 he) with rfl | he
  · exact key_lt hi hn
  · exact h.above i (by omega) e he

theorem Counting.avoids_present {n : Nat} {t : Node Key Nat} (h : Counting n t)
    (hn : n ≤ 2147483647) : (store blank).Avoids Present t (countdown n) := by
  induction n generalizing t with
  | zero => trivial
  | succ n ih =>
    refine ⟨fun hmem => ?_, fun t' a ht' => ?_⟩
    · obtain ⟨e, he, heq⟩ := mem_map.1 hmem
      exact absurd (h.above n (Nat.lt_succ_self n) e he) (by rw [heq]; exact lt_irrefl _)
    · by_cases hh : t.height ≤ nodeStack
      · obtain ⟨t1, h1, hc, -⟩ := h.step (by omega) hh
        obtain rfl : t1 = t' := congrArg Prod.fst (some.inj (h1.symm.trans ht'))
        exact ih hc (by omega)
      · rw [step_tall _ h.whole (not_le.1 hh)] at ht'
        cases ht'

/-- A run that avoids high trees has few calls. -/
theorem Counting.length_le {n : Nat} {t : Node Key Nat} (h : Counting n t) (hn : n ≤ 2147483647)
    (hl : t.toList.length < 3 * 2 ^ 21) (havoid : (store blank).Avoids Tall t (countdown n)) :
    t.toList.length + n < 3 * 2 ^ 21 := by
  induction n generalizing t with
  | zero => exact hl
  | succ n ih =>
    have hh : t.height ≤ nodeStack := not_lt.1 havoid.1
    obtain ⟨t', ht', hc, hlen⟩ := h.step (by omega) hh
    have hsize := spine_length h.whole.content (by simpa using h.whole.degree_le) h.spine
    rw [← toList_eq_below] at hsize
    have hpow : 2 ^ (t.height + 1) ≤ 2 ^ 21 :=
      Nat.pow_le_pow_right (by decide) (Nat.succ_le_succ hh)
    have := ih hc (by omega) (by omega) (havoid.2 t' _ ht')
    omega

/-- Before all of the keys from 6291455 down to 0 are inserted, a call
overruns `node_stack`. -/
theorem countdown_not_shape :
    (store blank).Avoids Present (createTree blank) (countdown (3 * 2 ^ 21)) ∧
      ¬ (store blank).Runs (fun t c a t' => Shape t' ∧ Effect t c a t') (createTree blank)
        (countdown (3 * 2 ^ 21)) := by
  have hcount : Counting (3 * 2 ^ 21) (createTree blank) :=
    ⟨whole_createTree.1, trivial, fun i _ e he => by cases he⟩
  have hnew := hcount.avoids_present (by decide)
  refine ⟨hnew, fun hruns => ?_⟩
  have havoid := (Store.runs_iff (R := fun t m => Whole t ∧ Holds t.toList m)
    (fun _ _ c h => step_ok blank c h) (fun _ _ c h => step_tall c h.1)
    whole_createTree hnew).1 hruns
  have := hcount.length_le (by decide) (by decide) havoid
  omega

/-! ## Queries -/

/-- `find` after the calls returns what the dictionary has. -/
def Finds (fresh : Node κ ο) (cs : List (Call κ ο)) (q : κ) : Prop :=
  ((store fresh).run (createTree fresh) cs).bind (find · q) = some (Dict.empty.run cs q)

instance [DecidableEq ο] (fresh : Node κ ο) (cs : List (Call κ ο)) (q : κ) :
    Decidable (Finds fresh cs q) :=
  inferInstanceAs (Decidable (_ = _))

/-- The tree is empty, and its root block still has an object for `q` in its
first entry. -/
def Stale (t : Node κ ο) (q : κ) : Prop :=
  t.height = 0 ∧ t.degree = 0 ∧ t.key 0 = q ∧ (t.next 0).asObject ≠ some none

instance [DecidableEq ο] (t : Node κ ο) (q : κ) : Decidable (Stale t q) :=
  inferInstanceAs (Decidable (_ ∧ _ ∧ _ ∧ _))

theorem find_eq_iff (h : Whole t ∧ Holds t.toList m) (q : κ) :
    find t q = some (m q) ↔ ¬ Stale t q := by
  obtain ⟨hw, hm⟩ := h
  by_cases hempty : t.height = 0 ∧ t.degree = 0
  · have hq : m q = none := by
      have hnil : t.toList = [] := by rw [toList_eq_below, Block.entries, hempty.1, hempty.2]; rfl
      refine eq_none_iff_forall_ne_some.2 fun o ho => ?_
      have := (hm q o).2 ho
      rw [hnil] at this
      cases this
    have hfind : find t q = if t.key 0 = q then (t.next 0).asObject else some none := by
      have hlower : t.lower q = some 0 := by rw [Block.lower, hempty.2]; rfl
      rw [find, findFrom_eq t.cell [], Block.cell, descend, if_neg (by rw [hempty.1]; decide)]
      change (t.lower q).bind (findEntry t q) = _
      rw [hlower, bind_some]
      simp [findEntry, read_eq (show 0 < B by decide)]
    rw [hfind, hq]
    by_cases hkey : t.key 0 = q
    · simp [Stale, hempty, hkey]
    · simp [Stale, hkey]
  · obtain ⟨r, hr, hmem⟩ := find_ok q hw fun h0 => Nat.pos_of_ne_zero fun hd => hempty ⟨h0, hd⟩
    have hrm : r = m q := Option.ext fun o => by rw [hmem, hm q o]
    rw [hr, hrm]
    exact iff_of_true rfl fun hs => hempty ⟨hs.1, hs.2.1⟩

/-- After a run that inserts no key twice, `find` returns the object last
inserted under `q`, or NULL, if and only if no call was made on a tree of more
than 20 levels above the leaves and the root block is not an empty one with an
object for `q` left over. -/
theorem find_iff_not_stale (fresh : Node κ ο) (cs : List (Call κ ο)) (q : κ)
    (hnew : (store fresh).Avoids Present (createTree fresh) cs) :
    Finds fresh cs q ↔ (store fresh).Avoids Tall (createTree fresh) cs ∧
      ∀ t ∈ (store fresh).run (createTree fresh) cs, ¬ Stale t q := by
  have hstep : ∀ (t : Node κ ο) m c, Whole t ∧ Holds t.toList m → ¬ Present t c → ¬ Tall t c → _ :=
    fun t m c h => step_ok fresh c h
  unfold Finds
  constructor
  · intro h
    obtain ⟨t, ht, hf⟩ := bind_eq_some_iff.1 h
    have havoid := Store.avoids_of_run hstep (fun _ _ c h => step_tall c h.1)
      whole_createTree hnew ht
    refine ⟨havoid, fun t' ht' => ?_⟩
    obtain ⟨t1, h1, hrep⟩ := Store.exists_run hstep whole_createTree hnew havoid
    obtain rfl : t1 = t := some.inj (h1.symm.trans ht)
    obtain rfl : t1 = t' := some.inj (h1.symm.trans ht')
    exact (find_eq_iff hrep q).1 hf
  · rintro ⟨havoid, hstale⟩
    obtain ⟨t, ht, hrep⟩ := Store.exists_run hstep whole_createTree hnew havoid
    rw [ht, bind_some]
    exact (find_eq_iff hrep q).2 (hstale t ht)

theorem find_fiveKeys : Finds blank fiveKeys (key 7) :=
  (find_iff_not_stale blank fiveKeys (key 7) (by decide +kernel)).2 (by decide +kernel)

/-- A key that was inserted and deleted again is still found. -/
theorem find_deleted : ¬ Finds blank [.insert (key 5) 50, .delete (key 5)] (key 5) := by decide

end CLangProject.AbTree

import Mathlib

/-!
# Linked lists in a store

A pointer is an `Option ι`, `none` for NULL, and `next : ι → Option ι` reads
the link of a cell. `Path next p l q`: following the links from `p` passes
exactly the cells `l` and then stands at `q`. With `q = none` this is a
NULL-terminated list, with `q` a fixed cell a circular one.
-/

namespace CLangProject

open List Option

variable {ι : Type*} {next next' : ι → Option ι}

variable {p q : Option ι} {l l' : List ι} {i j : ι}

def Path (next : ι → Option ι) : Option ι → List ι → Option ι → Prop
  | p, [], q => p = q
  | p, i :: l, q => p = some i ∧ Path next (next i) l q

theorem Path.congr (h : Path next p l q) (heq : ∀ i ∈ l, next' i = next i) : Path next' p l q := by
  induction l generalizing p with
  | nil => exact h
  | cons i l ih =>
    refine ⟨h.1, ?_⟩
    rw [heq i mem_cons_self]
    exact ih h.2 fun j hj => heq j (mem_cons_of_mem i hj)

theorem path_append : Path next p (l ++ l') q ↔ ∃ r, Path next p l r ∧ Path next r l' q := by
  induction l generalizing p with
  | nil => exact ⟨fun h => ⟨p, rfl, h⟩, fun ⟨_, hp, h⟩ => (show p = _ from hp) ▸ h⟩
  | cons i l ih =>
    rw [cons_append, Path, ih]
    exact ⟨fun ⟨hp, r, h, h'⟩ => ⟨r, ⟨hp, h⟩, h'⟩, fun ⟨r, ⟨hp, h⟩, h'⟩ => ⟨hp, r, h, h'⟩⟩

/-- Let the list end elsewhere, by its last link. -/
theorem Path.relink {q' : Option ι} (h : Path next p (l ++ [i]) q)
    (heq : ∀ j ∈ l, next' j = next j) (hi : next' i = q') : Path next' p (l ++ [i]) q' := by
  obtain ⟨r, hl, hr, -⟩ := path_append.1 h
  exact path_append.2 ⟨r, hl.congr heq, hr, hi⟩

/-- A list gets one more cell at its end. -/
theorem Path.snoc (h : Path next p (l ++ [i]) none)
    (heq : ∀ k ∈ l, next' k = next k) (hi : next' i = some j) (hj : next' j = none) :
    Path next' p (l ++ [i] ++ [j]) none :=
  path_append.2 ⟨some j, h.relink heq hi, rfl, hj⟩

/-- A cell is taken out of a list, by the link of the cell before it. -/
theorem Path.unlink (h : Path next p (l ++ [i] ++ j :: l') q)
    (heq : ∀ k ∈ l ++ l', next' k = next k) (hi : next' i = next j) :
    Path next' p (l ++ [i] ++ l') q := by
  obtain ⟨r, hl, -, hr⟩ := path_append.1 h
  refine path_append.2 ⟨next j, hl.relink (fun k hk => heq k (mem_append_left _ hk)) hi, ?_⟩
  exact hr.congr fun k hk => heq k (mem_append_right _ hk)

/-- The list from one of its cells on. -/
theorem Path.suffix (h : Path next p (l ++ i :: l') q) : Path next (next i) l' q := by
  induction l generalizing p with
  | nil => exact h.2
  | cons _ _ ih => exact ih h.2

/-- The first cell of a list, and what follows it. -/
theorem Path.cons_cases (h : Path next (some i) (j :: l) none) :
    i = j ∧ (next i = none ∧ l = [] ∨ ∃ k, next i = some k ∧ Path next (some k) l none) := by
  obtain ⟨hij, h⟩ := h
  obtain rfl := some.inj hij
  refine ⟨rfl, ?_⟩
  cases l with
  | nil => exact Or.inl ⟨h, rfl⟩
  | cons k l => exact Or.inr ⟨k, h.1, rfl, h.2⟩

section

variable (h : Path next p l q)
include h

/-- A list that does not end in NULL has no NULL link inside. -/
theorem Path.next_ne_none (hq : q ≠ none) (hi : i ∈ l) : next i ≠ none := by
  obtain ⟨l1, l2, rfl⟩ := append_of_mem hi
  have h := h.suffix
  cases l2 with
  | nil => rw [show next i = q from h]; exact hq
  | cons j l2 => rw [h.1]; exact some_ne_none j

theorem Path.head_mem (hp : p = some i) : i ∈ l ∨ q = some i := by
  cases l with
  | nil => exact Or.inr ((show p = q from h) ▸ hp)
  | cons j l =>
    obtain rfl := some.inj (h.1.symm.trans hp)
    exact Or.inl mem_cons_self

theorem Path.mem_of_ne_nil (hl : l ≠ []) (hp : p = some i) : i ∈ l := by
  obtain ⟨j, l, rfl⟩ := exists_cons_of_ne_nil hl
  obtain rfl := some.inj (h.1.symm.trans hp)
  exact mem_cons_self

/-- A link leads to a cell of the list or to its end. -/
theorem Path.next_mem (hi : i ∈ l) (hj : next i = some j) : j ∈ l ∨ q = some j := by
  obtain ⟨l1, l2, rfl⟩ := append_of_mem hi
  rcases h.suffix.head_mem hj with hmem | hq
  · exact Or.inl (mem_append_right _ (mem_cons_of_mem _ hmem))
  · exact Or.inr hq

end

/-- A list that ends in a given cell and does not contain it before is the only one. -/
theorem Path.unique {z : ι} (h : Path next p l (some z)) (h' : Path next p l' (some z))
    (hz : z ∉ l) (hz' : z ∉ l') : l = l' := by
  induction l generalizing p l' with
  | nil =>
    cases l' with
    | nil => rfl
    | cons j l' =>
      obtain rfl := some.inj ((show p = some z from h).symm.trans h'.1)
      exact absurd mem_cons_self hz'
  | cons i l ih =>
    cases l' with
    | nil =>
      obtain rfl := some.inj ((show p = some z from h').symm.trans h.1)
      exact absurd mem_cons_self hz
    | cons j l' =>
      obtain rfl := some.inj (h.1.symm.trans h'.1)
      rw [ih h.2 h'.2 (fun hm => hz (mem_cons_of_mem _ hm)) fun hm => hz' (mem_cons_of_mem _ hm)]

/-- Distinct cells numbered below `n` are at most `n`. -/
theorem length_le_of_nodup {l : List Nat} {n : Nat} (hl : l.Nodup) (h : ∀ i ∈ l, i < n) :
    l.length ≤ n := by
  have hsub : l ⊆ List.range n := fun i hi => mem_range.mpr (h i hi)
  simpa using (hl.subperm hsub).length_le

end CLangProject

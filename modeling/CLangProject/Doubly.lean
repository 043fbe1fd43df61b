import Mathlib

/-!
# Doubly linked lists in a store

The links of a cell are read by `next` and `prev`. `Links next prev p l q`: the cells `l`
stand one behind the other, each one linked to the one before it and to the one behind it;
the first one is linked back to `p` and the last one on to `q`. The outer ends `p` and `q` say
what a part of a longer list is joined to (`links_append`).

A change at one end of a part leaves the rest as it is (`Links.head`, `Links.last`), and so two
parts are joined by the links between them (`Links.join`), a cell is put between them
(`Links.insert`) or taken out (`Links.remove`).
-/

namespace CLangProject

open List

variable {ι : Type*} {next prev next' prev' : ι → Option ι} {p q p' q' : Option ι}
    {l r : List ι} {a : ι}

def Links (next prev : ι → Option ι) : Option ι → List ι → Option ι → Prop
  | _, [], _ => True
  | p, a :: l, q => prev a = p ∧ next a = l.head?.or q ∧ Links next prev (some a) l q

theorem Links.congr (h : Links next prev p l q) (hnext : ∀ a ∈ l, next' a = next a)
    (hprev : ∀ a ∈ l, prev' a = prev a) : Links next' prev' p l q := by
  induction l generalizing p with
  | nil => trivial
  | cons a l ih =>
    obtain ⟨hn, hnext⟩ := forall_mem_cons.1 hnext
    obtain ⟨hp, hprev⟩ := forall_mem_cons.1 hprev
    exact ⟨hp.trans h.1, hn.trans h.2.1, ih h.2.2 hnext hprev⟩

theorem links_append : Links next prev p (l ++ r) q ↔
    Links next prev p l (r.head?.or q) ∧ Links next prev (l.getLast?.or p) r q := by
  induction l generalizing p with
  | nil => simp [Links]
  | cons a l ih =>
    rw [cons_append, Links, Links, ih, List.head?_append, Option.or_assoc, List.getLast?_cons]
    cases l with
    | nil => simp [and_assoc]
    | cons b l => simp [and_assoc, List.getLast?_cons]

theorem links_concat : Links next prev p (l ++ [a]) q ↔
    Links next prev p l (some a) ∧ prev a = l.getLast?.or p ∧ next a = q := by
  rw [links_append]
  simp [Links]

section

variable (h : Links next prev p l q)
include h

theorem Links.next_last (ha : l.getLast? = some a) : next a = q := by
  obtain ⟨l, rfl⟩ := List.getLast?_eq_some_iff.1 ha
  exact (links_concat.1 h).2.2

theorem Links.prev_head (ha : l.head? = some a) : prev a = p := by
  obtain ⟨l, rfl⟩ := List.head?_eq_some_iff.1 ha
  exact h.1

theorem Links.agree (h' : Links next' prev' p l q) :
    ∀ b ∈ l, next' b = next b ∧ prev' b = prev b := by
  induction l generalizing p with
  | nil => exact nofun
  | cons a l ih =>
    exact forall_mem_cons.2 ⟨⟨h'.2.1.trans h.2.1.symm, h'.1.trans h.1.symm⟩, ih h.2.2 h'.2.2⟩

end

/-! ## Changes -/

/-- A pointer of the cell `p`, if there is one, is set to `q`. -/
def redirect [DecidableEq ι] (f : ι → Option ι) (p q : Option ι) : ι → Option ι :=
  fun b => if p = some b then q else f b

theorem redirect_some [DecidableEq ι] (f : ι → Option ι) (a : ι) (p : Option ι) :
    redirect f (some a) p = Function.update f a p := by
  funext b
  simp [redirect, Function.update_apply, eq_comm]

section Changes

variable [DecidableEq ι]

section

variable (h : Links next prev p l q) (hl : l.Nodup)
include h hl

/-- The first cell is linked back to `p'`. -/
theorem Links.head (hnext : ∀ b ∈ l, next' b = next b)
    (hprev : ∀ b ∈ l, prev' b = if l.head? = some b then p' else prev b) :
    Links next' prev' p' l q := by
  cases l with
  | nil => trivial
  | cons a l =>
    obtain ⟨hn, hnext⟩ := forall_mem_cons.1 hnext
    obtain ⟨hp, hprev⟩ := forall_mem_cons.1 hprev
    refine ⟨hp.trans (if_pos rfl), hn.trans h.2.1, h.2.2.congr hnext fun b hb => ?_⟩
    have hba : a ≠ b := fun heq => (nodup_cons.1 hl).1 (heq ▸ hb)
    rw [hprev b hb, if_neg (by simpa using hba)]

section

variable (hnext : ∀ b ∈ l, next' b = if l.getLast? = some b then q' else next b)
include hnext

/-- The last cell is linked on to `q'`. -/
theorem Links.last (hprev : ∀ b ∈ l, prev' b = prev b) : Links next' prev' p l q' := by
  cases l using List.reverseRecOn with
  | nil => trivial
  | append_singleton l a =>
    obtain ⟨hlinks, hp, -⟩ := links_concat.1 h
    have ha : a ∈ l ++ [a] := by simp
    refine links_concat.2 ⟨hlinks.congr (fun b hb => ?_) fun b hb => hprev b (mem_append_left _ hb),
      (hprev a ha).trans hp, (hnext a ha).trans (if_pos (List.getLast?_concat ..))⟩
    have hba : a ≠ b := fun heq =>
      (nodup_append.1 hl).2.2 b hb a (mem_singleton_self a) heq.symm
    rw [hnext b (mem_append_left _ hb), List.getLast?_concat, if_neg (by simpa using hba)]

theorem Links.ends (hprev : ∀ b ∈ l, prev' b = if l.head? = some b then p' else prev b) :
    Links next' prev' p' l q' :=
  (h.last hl hnext fun _ _ => rfl).head hl (fun _ _ => rfl) hprev

end

end

/-- Two lists are joined by the links between them. -/
theorem Links.join (hl : Links next prev p l q') (hr : Links next prev p' r q)
    (hnodup : (l ++ r).Nodup)
    (hnl : ∀ b ∈ l, next' b = if l.getLast? = some b then r.head?.or q else next b)
    (hpl : ∀ b ∈ l, prev' b = prev b) (hnr : ∀ b ∈ r, next' b = next b)
    (hpr : ∀ b ∈ r, prev' b = if r.head? = some b then l.getLast?.or p else prev b) :
    Links next' prev' p (l ++ r) q := by
  obtain ⟨hnodupl, hnodupr, -⟩ := nodup_append.1 hnodup
  exact links_append.2 ⟨hl.last hnodupl hnl hpl, hr.head hnodupr hnr hpr⟩

/-- A cell is put between two parts of a list. -/
theorem Links.insert (h : Links next prev p (l ++ r) q) (hnodup : (l ++ r).Nodup)
    (hnl : ∀ b ∈ l, next' b = if l.getLast? = some b then some a else next b)
    (hpl : ∀ b ∈ l, prev' b = prev b) (hnr : ∀ b ∈ r, next' b = next b)
    (hpr : ∀ b ∈ r, prev' b = if r.head? = some b then some a else prev b)
    (hna : next' a = r.head?.or q) (hpa : prev' a = l.getLast?.or p) :
    Links next' prev' p (l ++ a :: r) q := by
  obtain ⟨hl, hr⟩ := links_append.1 h
  obtain ⟨hnodupl, hnodupr, -⟩ := nodup_append.1 hnodup
  exact links_append.2 ⟨hl.last hnodupl hnl hpl, hpa, hna, hr.head hnodupr hnr hpr⟩

/-- A cell is taken out. -/
theorem Links.remove (h : Links next prev p (l ++ a :: r) q) (hnodup : (l ++ a :: r).Nodup)
    (hnl : ∀ b ∈ l, next' b = if l.getLast? = some b then r.head?.or q else next b)
    (hpl : ∀ b ∈ l, prev' b = prev b) (hnr : ∀ b ∈ r, next' b = next b)
    (hpr : ∀ b ∈ r, prev' b = if r.head? = some b then l.getLast?.or p else prev b) :
    Links next' prev' p (l ++ r) q := by
  obtain ⟨hl, -, -, hr⟩ := links_append.1 h
  exact hl.join hr (hnodup.sublist ((sublist_cons_self a r).append_left l)) hnl hpl hnr hpr

end Changes

end CLangProject

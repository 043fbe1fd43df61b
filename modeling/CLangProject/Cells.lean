import Mathlib

/-!
# Memory in which cells come and go

The memory holds the contents of the live cells; nothing is stored at any other
address. An access to a cell that is not live has no result. The allocator chooses
the address of a new cell, and the only thing known about it is that there was no live
cell before.

A link of the cells is read by `link g`, and after a change of one cell it is
updated at one address.

A call with a loop takes a bound for its steps, beyond which it has no result. It `Ends` with
a result if it has that result for every bound that is large enough.
-/

namespace CLangProject

open Option Function

/-- The contents of the live cells. -/
abbrev Cells (ν : Type*) := Nat → Option ν

namespace Cells

variable {ν β : Type*} {m m' : Cells ν} {a b : Nat} {v : ν} {f : ν → ν}

/-- A new cell at the address `a`. -/
def alloc (m : Cells ν) (a : Nat) (v : ν) : Option (Cells ν) :=
  match m a with
  | none => some (update m a (some v))
  | some _ => none

def modify (m : Cells ν) (a : Nat) (f : ν → ν) : Option (Cells ν) :=
  match m a with
  | none => none
  | some v => some (update m a (some (f v)))

def free (m : Cells ν) (a : Nat) : Option (Cells ν) :=
  match m a with
  | none => none
  | some _ => some (update m a none)

theorem alloc_eq (h : m a = none) : m.alloc a v = some (update m a (some v)) := by rw [alloc, h]

theorem modify_eq (h : m a = some v) : m.modify a f = some (update m a (some (f v))) := by
  rw [modify, h]

theorem free_eq (h : m a = some v) : m.free a = some (update m a none) := by rw [free, h]

/-- What a cell says, `none` if it is not live. -/
def link (g : ν → Option β) (m : Cells ν) (a : Nat) : Option β := (m a).bind g

variable {g : ν → Option β}

theorem link_of_eq (h : m a = some v) : link g m a = g v := by rw [link, h, bind_some]

theorem exists_of_link {x : β} (h : link g m a = some x) : ∃ v, m a = some v ∧ g v = some x :=
  bind_eq_some_iff.1 h

theorem link_update (g : ν → Option β) (o : Option ν) :
    link g (update m a o) = update (link g m) a (o.bind g) := by
  funext b
  by_cases hb : b = a
  · subst hb
    rw [link, update_self, update_self]
  · rw [link, update_of_ne hb, update_of_ne hb, link]

end Cells

variable {β : Type*} {f : Nat → Option β} {x y : β}

/-- With enough steps the call has the result `x`. -/
def Ends (f : Nat → Option β) (x : β) : Prop := ∃ bound, ∀ fuel, bound ≤ fuel → f fuel = some x

theorem Ends.unique (h : Ends f x) (h' : Ends f y) : x = y := by
  obtain ⟨b, hb⟩ := h
  obtain ⟨b', hb'⟩ := h'
  have hx := hb (max b b') (Nat.le_max_left ..)
  have hy := hb' (max b b') (Nat.le_max_right ..)
  exact some.inj (hx.symm.trans hy)

theorem Ends.of_eq (h : ∀ fuel, f fuel = some x) : Ends f x := ⟨0, fun fuel _ => h fuel⟩

/-- The end of a loop. -/
theorem Ends.of_succ (h : ∀ fuel, f (fuel + 1) = some x) : Ends f x := by
  refine ⟨1, fun fuel hfuel => ?_⟩
  obtain ⟨fuel, rfl⟩ := Nat.exists_eq_add_of_le' hfuel
  exact h fuel

variable {g : Nat → Option β}

/-- Some steps of a loop. -/
theorem Ends.steps {k : Nat} (h : Ends f x) (hg : ∀ fuel, g (fuel + k) = f fuel) : Ends g x := by
  obtain ⟨b, hb⟩ := h
  refine ⟨b + k, fun fuel hfuel => ?_⟩
  obtain ⟨fuel, rfl⟩ := Nat.exists_eq_add_of_le' (show k ≤ fuel by omega)
  rw [hg, hb fuel (by omega)]

/-- One step of a loop. -/
theorem Ends.step (h : Ends f x) (hg : ∀ fuel, g (fuel + 1) = f fuel) : Ends g x := h.steps hg

theorem Ends.map {γ : Type*} (h : Ends f x) (g : β → γ) :
    Ends (fun fuel => (f fuel).map g) (g x) := by
  obtain ⟨b, hb⟩ := h
  exact ⟨b, fun fuel hfuel => congrArg (Option.map g) (hb fuel hfuel)⟩

/-- One call after the other. -/
theorem Ends.bind {γ : Type*} {g : Nat → β → Option γ} {z : γ} (h : Ends f x)
    (hg : Ends (g · x) z) :
    Ends (fun fuel => (f fuel).bind (g fuel)) z := by
  obtain ⟨b, hb⟩ := h
  obtain ⟨b', hb'⟩ := hg
  refine ⟨max b b', fun fuel hfuel => ?_⟩
  have hf := hb fuel (Nat.le_trans (Nat.le_max_left ..) hfuel)
  have hg := hb' fuel (Nat.le_trans (Nat.le_max_right ..) hfuel)
  exact (congrArg (Option.bind · (g fuel)) hf).trans hg

end CLangProject

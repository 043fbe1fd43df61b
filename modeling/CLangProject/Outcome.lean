import Mathlib

/-!
# How a call of the library ends

A C function that may throw returns its value beside the new state, or
raises one of the exceptions `ε` at some source coordinates, or does not
end (a loop out of fuel, a NULL pointer followed). The state is kept on an
exception: what was written before the throw stays written.
-/

namespace CLangProject

/-- The source coordinates of a throw; `none` is a NULL `file`. -/
structure Coord where
  file : Option String
  line : Nat
deriving Repr, DecidableEq

inductive Outcome (ε α : Type) where
  | ok (a : α)
  | raise (e : ε) (loc : Coord)
  | stuck
deriving Repr, DecidableEq

namespace Outcome

variable {ε α β : Type}

def map (f : α → β) : Outcome ε α → Outcome ε β
  | .ok a => .ok (f a)
  | .raise e l => .raise e l
  | .stuck => .stuck

def Raises (e : ε) (o : Outcome ε α) : Prop := ∃ loc, o = .raise e loc

/-- `Except_throw` at the coordinates `loc` of the caller, or `THROW` at
`here` when the caller gave no file. -/
def throwAt (e : ε) (loc here : Coord) : Outcome ε α :=
  if loc.file = none then .raise e here else .raise e loc

theorem throwAt_raises (e : ε) (loc here : Coord) :
    (throwAt e loc here : Outcome ε α).Raises e := by
  unfold throwAt
  split_ifs
  · exact ⟨here, rfl⟩
  · exact ⟨loc, rfl⟩

end Outcome

end CLangProject

import Mathlib

/-!
# Keys of the search trees

The tree programs keep the nodes on a search path in an array of 100 entries.
That this is enough depends on the number of keys, of which an `int` has
`2 ^ 32`.
-/

namespace CLangProject

/-- `key_t` is `int`. -/
abbrev Key := {k : Int // -2147483648 ≤ k ∧ k ≤ 2147483647}

instance (a b : Key) : Decidable (a ≤ b) := Int.decLe a.1 b.1

instance (a b : Key) : Decidable (a < b) := Int.decLt a.1 b.1

instance : Fintype Key :=
  Fintype.subtype (@Finset.Icc Int Int.instLinearOrder.toPreorder _ (-2147483648) 2147483647)
    fun _ =>
    Finset.mem_Icc

theorem card_key : Fintype.card Key = 2 ^ 32 := by
  rw [Fintype.subtype_card, Int.card_Icc]
  decide

instance neZero12 : NeZero (12 : Nat) := ⟨by decide⟩

def smallKey (n : Fin 12) : Key := ⟨n.val, by omega, by omega⟩

theorem negInfty_mem : -2147483648 ≤ (-1000 : Int) ∧ (-1000 : Int) ≤ 2147483647 := by decide

/-- The length of `path_stack`. -/
def pathStack : Nat := 100

end CLangProject

import CLangProject.UpForest

/-!
# Union-find structures

A union-find structure inserts nodes, joins two nodes and answers whether two
nodes are in the same class. Its calls follow links and get a bound `fuel` for
the length of every loop; a call without a result has not terminated within the
bound, or has followed a NULL pointer.

`Correct C` says that the calls of a run do what they should: the answers are
those of the equivalence generated by the pairs joined so far. Nodes that were
not inserted are excluded, and so are joins for which `C` fails. A structure that
keeps a forest of links (`Keeps`) is correct if nodes of one class are not joined.
-/

namespace CLangProject

open List

structure UnionFind (σ ι : Type) where
  insert : σ → ι → Nat × σ
  sameClass : (fuel : Nat) → σ → Nat → Nat → Option (Bool × σ)
  join : (fuel : Nat) → σ → Nat → Nat → Option σ

namespace UnionFind

inductive Call (ι : Type) where
  | insert (item : ι)
  | sameClass (x y : Nat)
  | join (x y : Nat)

variable {σ ι : Type} {U : UnionFind σ ι} {fuel : Nat}

/-- The state `s` has the nodes `N`, of which the pairs `ps` have been
joined. -/
def Correct (U : UnionFind σ ι) (C : List (Nat × Nat) → Nat → Nat → Prop) (fuel : Nat) :
    σ → List Nat → List (Nat × Nat) → List (Call ι) → Prop
  | _, _, _, [] => True
  | s, N, ps, .insert item :: cs => (U.insert s item).1 ∉ N ∧
      Correct U C fuel (U.insert s item).2 ((U.insert s item).1 :: N) ps cs
  | s, N, ps, .sameClass x y :: cs => x ∈ N → y ∈ N → ∃ b s', U.sameClass fuel s x y =
      some (b, s') ∧ (b = true ↔ Joined ps x y) ∧ Correct U C fuel s' N ps cs
  | s, N, ps, .join x y :: cs => x ∈ N → y ∈ N → C ps x y → ∃ s', U.join fuel s x y = some s' ∧
      Correct U C fuel s' N ((x, y) :: ps) cs

/-- The two nodes are in different classes. -/
def Apart (ps : List (Nat × Nat)) (x y : Nat) : Prop := ¬ Joined ps x y

/-- The structure keeps a forest with the links `up`, and the invariant `I` of its states. -/
structure Keeps (U : UnionFind σ ι) (up : σ → Nat → Option Nat) (I : σ → List Nat → Prop)
    (fuel : Nat) : Prop where
  closed : ∀ {s N}, I s N → ∀ x ∈ N, ∀ y, up s x = some y → y ∈ N
  insert : ∀ {s N} item, I s N → (U.insert s item).1 ∉ N ∧
      I (U.insert s item).2 ((U.insert s item).1 :: N) ∧
    up (U.insert s item).2 (U.insert s item).1 = none ∧ ∀ z ∈ N, up (U.insert s item).2 z = up s z
  sameClass : ∀ {s N x y n k r r'}, I s N → N.length < fuel → x ∈ N → y ∈ N → Depth (up s) n x r →
    Depth (up s) k y r' → ∃ s', U.sameClass fuel s x y = some (r == r', s') ∧ I s' N ∧
      Shortcut (up s) (up s')
  join : ∀ {s N x y n k r r'}, I s N → N.length < fuel → x ∈ N → y ∈ N → Depth (up s) n x r →
    Depth (up s) k y r' → r ≠ r' → ∃ s', U.join fuel s x y = some s' ∧ I s' N ∧
      Merges (up s) (up s') N r r'

theorem Keeps.correct {up : σ → Nat → Option Nat} {I : σ → List Nat → Prop} (hU : U.Keeps up I fuel)
    {s : σ} {N : List Nat} {ps : List (Nat × Nat)} (cs : List (Call ι)) (h : I s N)
    (hc : Classes (up s) N ps) (hfuel : N.length + cs.length < fuel) :
    U.Correct Apart fuel s N ps cs := by
  induction cs generalizing s N ps with
  | nil => trivial
  | cons c cs ih =>
    rw [length_cons] at hfuel
    cases c with
    | insert item =>
      obtain ⟨hnew, hI, hroot, hup⟩ := hU.insert item h
      exact ⟨hnew, ih hI (hc.cons hnew hroot hup) (by rw [length_cons]; omega)⟩
    | sameClass x y =>
      intro hx hy
      obtain ⟨n, r, hn⟩ := hc.rooted x hx
      obtain ⟨k, r', hk⟩ := hc.rooted y hy
      obtain ⟨s', hs, hI, hshort⟩ := hU.sameClass h (by omega) hx hy hn hk
      refine ⟨_, s', hs, ?_, ih hI (hc.shortcut hshort (hU.closed hI)) (by omega)⟩
      rw [beq_iff_eq]
      exact hc.same x hx y hy _ _ _ _ hn hk
    | join x y =>
      intro hx hy hapart
      obtain ⟨n, r, hn⟩ := hc.rooted x hx
      obtain ⟨k, r', hk⟩ := hc.rooted y hy
      have hne : r ≠ r' := fun heq => hapart ((hc.same x hx y hy _ _ _ _ hn hk).1 heq)
      obtain ⟨s', hs, hI, hmerges⟩ := hU.join h (by omega) hx hy hn hk hne
      exact ⟨s', hs, ih hI (hc.merge hx hy hn hk hmerges (hU.closed hI)) (by omega)⟩

/-! ## Following the links -/

/-- `for ( root = x; root->up != NULL; root = root->up )` -/
def findRoot (up : Nat → Option Nat) : (fuel : Nat) → Nat → Option Nat
  | 0, _ => none
  | fuel + 1, x =>
    match up x with
    | none => some x
    | some y => findRoot up fuel y

variable {up : Nat → Option Nat} {x y r : Nat} {n : Nat}

theorem findRoot_of_depth (h : Depth up n x r) (hfuel : n < fuel) :
    findRoot up fuel x = some r := by
  induction n generalizing x fuel with
  | zero =>
    obtain rfl := h.eq_zero_iff.1 rfl
    obtain ⟨fuel, rfl⟩ := Nat.exists_eq_succ_of_ne_zero (Nat.pos_iff_ne_zero.1 hfuel)
    rw [findRoot, h.2]
  | succ n ih =>
    obtain ⟨y, hy, hd⟩ := h.parent
    obtain ⟨fuel, rfl⟩ := Nat.exists_eq_succ_of_ne_zero (show fuel ≠ 0 by omega)
    rw [findRoot, hy]
    exact ih hd (by omega)

/-- A node that points to itself has no root. -/
theorem findRoot_of_loop (h : up x = some x) (fuel : Nat) : findRoot up fuel x = none := by
  induction fuel with
  | zero => rfl
  | succ fuel ih => rw [findRoot, h]; exact ih

end UnionFind

end CLangProject

import CLangProject.Cells

/-!
# Loops over a stack of bounded size

`while ( st_p > 0 )` with an array as a stack: the loop takes the top entry, works on it and pushes
what is left to do. `Works` is the meaning of such a loop without the stack: an entry is done when
all that has been pushed for it is done, and only the number of the entries below it counts. The
loop ends if and only if the entries on the stack can be worked off (`ends_stackLoop`).
-/

namespace CLangProject

open List

variable {σ α : Type*}

/-- `visit` works on an entry and returns what to push, the last one pushed in front. The loop has
no result if there is no room for an entry. -/
def stackLoop (visit : σ → α → Option (σ × List α)) (limit : Nat) :
    (fuel : Nat) → List α → σ → Option σ
  | _, [], s => some s
  | 0, _ :: _, _ => none
  | fuel + 1, x :: st, s =>
    match visit s x with
    | none => none
    | some (s, more) =>
      if st.length + more.length ≤ limit then stackLoop visit limit fuel (more ++ st) s else none

/-- The entries `xs` on top of `n` others, and all that is pushed for them, take the state `s` to
`s'`. -/
inductive Works (visit : σ → α → Option (σ × List α)) (limit : Nat) : List α → Nat → σ → σ → Prop
  | nil (n : Nat) (s : σ) : Works visit limit [] n s s
  | cons {x : α} {xs more : List α} {n : Nat} {s s1 s2 s3 : σ}
      (hvisit : visit s x = some (s1, more)) (hroom : n + xs.length + more.length ≤ limit)
      (hmore : Works visit limit more (n + xs.length) s1 s2)
      (hrest : Works visit limit xs n s2 s3) : Works visit limit (x :: xs) n s s3

variable {visit : σ → α → Option (σ × List α)} {limit fuel n : Nat} {xs : List α} {s s' : σ}

@[simp] theorem works_nil : Works visit limit [] n s s' ↔ s' = s := by
  constructor
  · rintro ⟨⟩
    rfl
  · rintro rfl
    exact .nil n s'

theorem works_one {x : α} {s1 : σ} {more : List α} (h : visit s x = some (s1, more)) :
    Works visit limit [x] n s s' ↔ n + more.length ≤ limit ∧ Works visit limit more n s1 s' := by
  constructor
  · rintro (_ | ⟨hvisit, hroom, hmore, _ | _⟩)
    cases h.symm.trans hvisit
    exact ⟨hroom, hmore⟩
  · rintro ⟨hroom, hmore⟩
    exact .cons h hroom hmore (.nil n s')

theorem works_cons {x : α} : Works visit limit (x :: xs) n s s' ↔
    ∃ s1, Works visit limit [x] (n + xs.length) s s1 ∧ Works visit limit xs n s1 s' := by
  constructor
  · rintro (_ | ⟨hvisit, hroom, hmore, hrest⟩)
    exact ⟨_, (works_one hvisit).2 ⟨hroom, hmore⟩, hrest⟩
  · rintro ⟨s1, _ | ⟨hvisit, hroom, hmore, _ | _⟩, hrest⟩
    exact .cons hvisit hroom hmore hrest

theorem Works.loop (h : Works visit limit xs n s s') (st : List α) (hst : st.length = n) :
    ∃ k, ∀ fuel,
      stackLoop visit limit (fuel + k) (xs ++ st) s = stackLoop visit limit fuel st s' := by
  induction h generalizing st with
  | nil => exact ⟨0, fun _ => rfl⟩
  | @cons x xs more n s s1 s2 s3 hvisit hroom _ _ ih1 ih2 =>
    obtain ⟨k1, h1⟩ := ih1 (xs ++ st) (by rw [length_append, hst, Nat.add_comm])
    obtain ⟨k2, h2⟩ := ih2 st hst
    refine ⟨k2 + k1 + 1, fun fuel => ?_⟩
    rw [← Nat.add_assoc, ← Nat.add_assoc, cons_append, stackLoop, hvisit]
    simp only
    rw [if_pos (by rw [length_append]; omega), h1, h2]

theorem works_of_loop {st : List α} {t : σ} (h : stackLoop visit limit fuel (xs ++ st) s = some t) :
    ∃ fuel' ≤ fuel, ∃ s', Works visit limit xs st.length s s' ∧
      stackLoop visit limit fuel' st s' = some t := by
  induction fuel using Nat.strong_induction_on generalizing xs st s with
  | _ fuel ih =>
    rcases xs with _ | ⟨x, xs⟩
    · exact ⟨fuel, le_rfl, s, .nil _ s, h⟩
    · cases fuel with
      | zero => cases h
      | succ fuel =>
        rw [cons_append, stackLoop] at h
        split at h
        · cases h
        next s1 more hvisit =>
          split at h
          next hroom =>
            rw [length_append, Nat.add_comm xs.length] at hroom
            obtain ⟨fuel1, hle1, s2, hmore, h⟩ := ih fuel (Nat.lt_succ_self _) h
            obtain ⟨fuel2, hle2, s3, hrest, h⟩ := ih fuel1 (Nat.lt_succ_of_le hle1) h
            rw [length_append, Nat.add_comm] at hmore
            exact ⟨fuel2, by omega, s3, .cons hvisit hroom hmore hrest, h⟩
          next => cases h

/-- The loop ends if and only if the entries on the stack can be worked off. -/
theorem ends_stackLoop : Ends (stackLoop visit limit · xs s) s' ↔ Works visit limit xs 0 s s' := by
  constructor
  · rintro ⟨bound, h⟩
    have hend := h bound le_rfl
    rw [← append_nil xs] at hend
    obtain ⟨fuel, -, s1, hworks, hnil⟩ := works_of_loop hend
    cases fuel <;> cases hnil <;> exact hworks
  · intro h
    obtain ⟨k, hk⟩ := h.loop [] rfl
    refine ⟨k, fun fuel hfuel => ?_⟩
    obtain ⟨fuel, rfl⟩ := Nat.exists_eq_add_of_le' hfuel
    have hend := hk fuel
    rw [append_nil] at hend
    refine hend.trans ?_
    cases fuel <;> rfl

end CLangProject

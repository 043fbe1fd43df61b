import CLangProject.ExceptNest

/-!
# `RETURN`

`RETURN` is used in place of `return` inside of `TRY` statements. It takes one
frame off `Except_stack` and leaves the function. `Body` is the body of a function
with a `RETURN` in it, and counts the `TRY`s whose bodies it stands in.

One frame is as many as the function has put there only if there is one such `TRY`.
With more of them, the frames of the outer ones stay on the stack after the function
has returned (`return_unwinds_iff`).
-/

namespace CLangProject

open List Function

namespace Except

open Machine

variable {ε σ : Type}

/-! ## Functions with a `RETURN` -/

/-- The body of a function, with `RETURN` in the bodies of `n` nested `TRY`s. -/
inductive Body (ε σ : Type) : Nat → Type where
  | ret : Body ε σ 0
  | before {n : Nat} (c : Body ε σ n) (t : Stmt ε σ .plain) : Body ε σ n
  | behind {n : Nat} (s : Stmt ε σ .plain) (hs : s.Direct .plain) (c : Body ε σ n) : Body ε σ n
  | try_ {n : Nat} (c : Body ε σ n) (clauses : Clauses ε σ) : Body ε σ (n + 1)
  | tryFinally {n : Nat} (c : Body ε σ n) (clauses : Clauses ε σ) (final : Stmt ε σ .plain) :
      Body ε σ (n + 1)

namespace Body

/-- The body with a statement in the place of the `RETURN`. -/
def fill (t : Stmt ε σ .plain) : {n : Nat} → Body ε σ n → Stmt ε σ .plain
  | _, ret => t
  | _, before c u => .seq (c.fill t) u
  | _, behind s _ c => .seq s (c.fill t)
  | _, try_ c clauses => .try_ (c.fill t) clauses
  | _, tryFinally c clauses final => .tryFinally (c.fill t) clauses final

/-- What is still to be executed of a function nested `d` deep, behind the `RETURN`;
the caller goes on with `K`. -/
def rest : {n : Nat} → Body ε σ n → Nat → List (Task ε σ) → List (Task ε σ)
  | _, ret, _, K => K
  | _, before c u, d, K => c.rest d (.run u d :: K)
  | _, behind _ _ c, d, K => c.rest d K
  | _, try_ c _, d, K => c.rest (d + 1) (.bodyEnd d :: .rethrowIf d :: K)
  | _, tryFinally c _ final, d, K => c.rest (d + 1) (.bodyEnd d :: (after d (some final) ++ K))

/-- The store with which the `RETURN` is reached; `none` if an exception keeps the
function from reaching it. -/
def arrive [DecidableEq ε] : {n : Nat} → Body ε σ n → σ → Option σ
  | _, ret, x => some x
  | _, before c _, x => c.arrive x
  | _, behind s _ c, x =>
    match eval s noExn x with
    | (x, .normal) => c.arrive x
    | (_, .raised _) => none
  | _, try_ c _, x => c.arrive x
  | _, tryFinally c _ _, x => c.arrive x

end Body

/-- `switch (Except_stack = Except_stack->prev, 0) default: return`; the caller goes on
with `K`. -/
def Machine.return_ (K : List (Task ε σ)) (m : Machine ε σ) : Option (Machine ε σ) :=
  m.stack.map fun p => { m with code := K, stack := (m.frames p).prev }

/-! ## The frames of the function -/

/-- The frames of `n` nested `TRY`s, the innermost one first. -/
def own (d : Nat) : Nat → List Nat
  | 0 => []
  | n + 1 => own (d + 1) n ++ [d]

theorem length_own (d n : Nat) : (own d n).length = n := by
  induction n generalizing d with
  | zero => rfl
  | succ n ih => simp [own, ih]

variable {d n : Nat} {K : List (Task ε σ)} {x : σ}

theorem le_of_mem_own {p : Nat} (h : p ∈ own d n) : d ≤ p := by
  induction n generalizing d with
  | zero => cases h
  | succ n ih =>
    rcases mem_append.1 h with h | h
    · exact Nat.le_of_succ_le (ih h)
    · exact Nat.le_of_eq (mem_singleton.1 h).symm

variable [DecidableEq ε]

/-- The machine at the `RETURN`: the frames of the function are on the stack, above what
was there when it was called. -/
structure AtReturn {n : Nat} (c : Body ε σ n) (t : Stmt ε σ .plain) (d : Nat)
    (K : List (Task ε σ)) (m0 : Machine ε σ) (x : σ) (m : Machine ε σ) : Prop where
  run : Run step m0 m
  code : m.code = .run t (d + n) :: c.rest d K
  store : m.store = x
  chain : Path (prevOf m) m.stack (own d n) m0.stack
  frames : ∀ j < d, m.frames j = m0.frames j

/-- From behind the `setjmp` on, the body of a `TRY`. -/
theorem AtReturn.of_enter {c : Body ε σ n} {t : Stmt ε σ .plain} {clauses : Clauses ε σ}
    (final : Option (Stmt ε σ .plain)) {m0 m : Machine ε σ}
    (hstep : step m0 = some (m0.enter d (c.fill t) clauses final K))
    (h : AtReturn c t (d + 1) (.bodyEnd d :: (after d final ++ K))
      { m0.enter d (c.fill t) clauses final K with
        code := .run (c.fill t) (d + 1) :: .bodyEnd d :: (after d final ++ K) } x m) :
    Run step m0 m ∧ Path (prevOf m) m.stack (own d (n + 1)) m0.stack ∧
      ∀ j < d, m.frames j = m0.frames j := by
  have hsel : step (m0.enter d (c.fill t) clauses final K) = some
      { m0.enter d (c.fill t) clauses final K with
        code := .run (c.fill t) (d + 1) :: .bodyEnd d :: (after d final ++ K) } := by
    simp only [step, enter, update_self, if_true]
  refine ⟨.head hstep (.head hsel h.run), ?_, fun j hj => ?_⟩
  · refine path_append.2 ⟨some d, h.chain, rfl, ?_⟩
    have hframe := h.frames d (Nat.lt_succ_self d)
    rw [show (enter d (c.fill t) clauses final K m0).frames d = _ from update_self ..]
      at hframe
    exact congrArg Frame.prev hframe
  · rw [h.frames j (Nat.lt_succ_of_lt hj)]
    exact update_of_ne (Nat.ne_of_lt hj) _ _

/-- A function that no exception keeps from it arrives at its `RETURN`. -/
theorem exists_atReturn (c : Body ε σ n) (t : Stmt ε σ .plain) (m0 : Machine ε σ)
    (hcode : m0.code = .run (c.fill t) d :: K) (harrive : c.arrive m0.store = some x) :
    ∃ m, AtReturn c t d K m0 x m := by
  induction c generalizing d K m0 with
  | ret =>
    exact ⟨m0, .refl m0, hcode, Option.some.inj harrive, rfl, fun _ _ => rfl⟩
  | before c u ih =>
    have hstep : step m0 = some { m0 with code := .run (c.fill t) d :: .run u d :: K } := by
      rw [step, hcode]
      rfl
    obtain ⟨m, h⟩ := ih { m0 with code := .run (c.fill t) d :: .run u d :: K } rfl harrive
    exact ⟨m, .head hstep h.run, h.code, h.store, h.chain, h.frames⟩
  | behind s hs c ih =>
    have hstep : step m0 = some { m0 with code := .run s d :: .run (c.fill t) d :: K } := by
      rw [step, hcode]
      rfl
    have hs := sim s hs noExn d (.run (c.fill t) d :: K)
      { m0 with code := .run s d :: .run (c.fill t) d :: K } rfl nofun nofun
    simp only [Body.arrive] at harrive
    cases hr : eval s noExn m0.store with
    | mk y r =>
      rw [hr] at harrive
      simp only [hr] at hs
      cases r with
      | raised e => cases harrive
      | normal =>
        obtain ⟨m1, hrun, hcode1, rfl, hag⟩ := hs
        obtain ⟨m, h⟩ := ih m1 hcode1 harrive
        refine ⟨m, (Run.head hstep hrun).trans h.run, h.code, h.store, ?_, fun j hj => ?_⟩
        · have hstack : m1.stack = m0.stack := hag.stack
          exact hstack ▸ h.chain
        · exact (h.frames j hj).trans (hag.frames j hj)
  | @try_ n c clauses ih =>
    obtain ⟨m, h⟩ := ih { m0.enter d (c.fill t) clauses none K with
      code := .run (c.fill t) (d + 1) :: .bodyEnd d :: (after d none ++ K) } rfl harrive
    obtain ⟨hrun, hchain, hframes⟩ := AtReturn.of_enter none (by rw [step, hcode]; rfl) h
    exact ⟨m, hrun, by rw [h.code, Nat.add_right_comm]; rfl, h.store, hchain, hframes⟩
  | @tryFinally n c clauses final ih =>
    obtain ⟨m, h⟩ := ih { m0.enter d (c.fill t) clauses (some final) K with
      code := .run (c.fill t) (d + 1) :: .bodyEnd d :: (after d (some final) ++ K) } rfl harrive
    obtain ⟨hrun, hchain, hframes⟩ := AtReturn.of_enter (some final) (by rw [step, hcode]; rfl) h
    exact ⟨m, hrun, by rw [h.code, Nat.add_right_comm]; rfl, h.store, hchain, hframes⟩

/-! ## What `RETURN` leaves on the stack -/

/-- A function called with `Except_stack` in its callers, whose frames lie below `d`, arrives
at a `RETURN` in the bodies of `n` of its `TRY`s. `RETURN` leaves `Except_stack` as it was
when the function was called, and no later `Except_throw` selects a frame of the function, if
and only if `n` is 1. -/
theorem return_unwinds_iff {n : Nat} (c : Body ε σ n) (t : Stmt ε σ .plain) (hn : 1 ≤ n) {d : Nat}
    {K : List (Task ε σ)} (m0 : Machine ε σ) (hcode : m0.code = .run (c.fill t) d :: K)
    (hcaller : ∀ p, m0.stack = some p → p < d) {x : σ} (harrive : c.arrive m0.store = some x) :
    ∃ m m', Run step m0 m ∧ m.code = .run t (d + n) :: c.rest d K ∧ m.store = x ∧
      m.return_ K = some m' ∧ (m'.stack = m0.stack ↔ n = 1) ∧
      ((∀ p, m'.stack = some p → p < d) ↔ n = 1) := by
  obtain ⟨m, h⟩ := exists_atReturn c t m0 hcode harrive
  have hchain := h.chain
  have hlen := length_own d n
  have hown : ∀ p ∈ own d n, d ≤ p := fun p hp => le_of_mem_own hp
  match hl : own d n with
  | [] =>
    rw [hl] at hlen
    exact absurd hlen (by simp; omega)
  | [p] =>
    rw [hl] at hchain hlen
    obtain ⟨hp, hprev⟩ := hchain
    have hprev : (m.frames p).prev = m0.stack := hprev
    have hone : n = 1 := hlen.symm
    refine ⟨m, { m with code := K, stack := (m.frames p).prev }, h.run, h.code, h.store, ?_, ?_, ?_⟩
    · rw [Machine.return_, hp]
      rfl
    · exact ⟨fun _ => hone, fun _ => hprev⟩
    · exact ⟨fun _ => hone, fun _ q hq => hcaller q (hprev.symm.trans hq)⟩
  | p :: q :: l =>
    rw [hl] at hchain hlen hown
    obtain ⟨hp, hq, -⟩ := hchain
    have hq : (m.frames p).prev = some q := hq
    have hdq : d ≤ q := hown q (by simp)
    have hmore : n ≠ 1 := by
      rintro rfl
      simp at hlen
    refine ⟨m, { m with code := K, stack := (m.frames p).prev }, h.run, h.code, h.store, ?_, ?_, ?_⟩
    · rw [Machine.return_, hp]
      rfl
    · refine ⟨fun hstack => absurd (hcaller q ?_) (Nat.not_lt.2 hdq), fun hone => absurd hone hmore⟩
      exact hstack.symm.trans hq
    · exact ⟨fun hlt => absurd (hlt q hq) (Nat.not_lt.2 hdq), fun hone => absurd hone hmore⟩

/-! ## One and two `TRY`s -/

/-- The place of the `RETURN`. -/
def here : Stmt Bool (List Nat) .plain := .act id

/-- `TRY 1; RETURN; ELSE 7; END_TRY`. -/
def once : Body Bool (List Nat) 1 :=
  .try_ (.behind (.act (1 :: ·)) trivial .ret) (.else_ (.act (7 :: ·)))

/-- The same inside of another `TRY`, which has the handler `ELSE 8`. -/
def twice : Body Bool (List Nat) 2 := .try_ once (.else_ (.act (8 :: ·)))

def callerError : Exn Bool := ⟨true, "caller.c", 9⟩

/-- What the caller does after the call: it throws an exception. -/
def goesOn : List (Task Bool (List Nat)) :=
  [.run (.throw callerError : Stmt Bool (List Nat) .plain) 1, .bodyEnd 0, .rethrowIf 0]

/-- `TRY f(); THROW(e); CATCH(e) 3; END_TRY`. -/
def caller {n : Nat} (f : Body Bool (List Nat) n) : Stmt Bool (List Nat) .plain :=
  .try_ (.seq (f.fill here) (.throw callerError)) (.catch_ true (.act (3 :: ·)) .done)

/-- The caller calls the function. -/
def calls {n : Nat} (f : Body Bool (List Nat) n) : Machine Bool (List Nat) :=
  { (Machine.init (caller f) []).enter 0 (.seq (f.fill here) (.throw callerError))
      (.catch_ true (.act (3 :: ·)) .done) none [] with
    code := .run (f.fill here) 1 :: goesOn }

theorem return_unwinds_once :
    Run step (Machine.init (caller once) []) (calls once) ∧ ∃ m m', Run step (calls once) m ∧
      m.code = .run here 2 :: once.rest 1 goesOn ∧ m.store = [1] ∧ m.return_ goesOn = some m' ∧
      m'.stack = (calls once).stack := by
  obtain ⟨m, m', hrun, hcode, hstore, hret, hstack, -⟩ := return_unwinds_iff once here
    (Nat.le_refl 1) (calls once) (d := 1) (K := goesOn) rfl (fun p hp => by cases hp; decide)
    (x := [1]) rfl
  exact ⟨.head rfl (.head rfl (.single rfl)), m, m', hrun, hcode, hstore, hret, hstack.2 rfl⟩

/-- After the `RETURN` the outer frame of the function is still on `Except_stack`, and the
exception that the caller throws is handled by the function that has returned. -/
theorem return_twice_not_unwound :
    Run step (Machine.init (caller twice) []) (calls twice) ∧ ∃ m m', Run step (calls twice) m ∧
      m.code = .run here 3 :: twice.rest 1 goesOn ∧ m.return_ goesOn = some m' ∧
      (calls twice).stack = some 0 ∧ m'.stack = some 1 ∧
      ∃ m'', Run step m' m'' ∧ m''.store = [8, 1] :=
  ⟨.head rfl (.head rfl (.single rfl)), _, _,
    .head rfl (.head rfl (.head rfl (.head rfl (.head rfl (.single rfl))))), rfl, rfl, rfl, rfl, _,
    .head rfl (.head rfl (.single rfl)), rfl⟩

end Except

end CLangProject

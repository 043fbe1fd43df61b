import CLangProject.Except

/-!
# The exception macros mean what they say

`sim` runs a statement of the macro expansion in front of an arbitrary
continuation `K`: the machine either arrives at `K`, with `Except_stack`
as it was before the statement, or at an `Except_throw`, again with
`Except_stack` as it was, so that the throw goes to the `TRY` whose body
the statement stands in. In both cases the store is the one of the
structured meaning. Frames and flags of the enclosing `TRY`s are not
touched, so every `TRY` finds its own frame where it left it.

`Laid` describes the continuation of a reachable state: the frames of the
running bodies are chained in order, and each has saved what stands behind
its body.
-/

namespace CLangProject

open Option Function

namespace Except

open Machine

variable {ε σ : Type}

/-! ## One statement under a continuation -/

/-- What a statement nested `d` deep leaves alone. -/
structure Agree (d : Nat) (m m' : Machine ε σ) : Prop where
  stack : m'.stack = m.stack
  frames : ∀ j < d, m'.frames j = m.frames j
  flags : ∀ j < d, m'.flags j = m.flags j
  aborted : m'.aborted = m.aborted

theorem Agree.refl (d : Nat) (m : Machine ε σ) : Agree d m m :=
  ⟨rfl, fun _ _ => rfl, fun _ _ => rfl, rfl⟩

theorem Agree.trans {d : Nat} {m1 m2 m3 : Machine ε σ} (h1 : Agree d m1 m2)
    (h2 : Agree d m2 m3) : Agree d m1 m3 where
  stack := h2.stack.trans h1.stack
  frames j hj := (h2.frames j hj).trans (h1.frames j hj)
  flags j hj := (h2.flags j hj).trans (h1.flags j hj)
  aborted := h2.aborted.trans h1.aborted

theorem Agree.mono {d d' : Nat} (hd : d ≤ d') {m m' : Machine ε σ} (h : Agree d' m m') :
    Agree d m m' :=
  ⟨h.stack, fun j hj => h.frames j (by omega), fun j hj => h.flags j (by omega), h.aborted⟩

section

variable {d : Nat} {K : List (Task ε σ)} {p : Place} {body : Stmt ε σ p} {clauses : Clauses ε σ}
  {final : Option (Stmt ε σ p)} {m m2 : Machine ε σ}
  (h : Agree (d + 1) (m.enter d body clauses final K) m2)
include h

theorem enter_frame :
    m2.frames d = ⟨m.stack, .select d body clauses :: (after d final ++ K), none⟩ :=
  (h.frames d (Nat.lt_succ_self d)).trans (update_self ..)

/-- Below its own depth a `TRY` changes no frame and no flag. -/
theorem enter_below {j : Nat} (hj : j < d) : m2.frames j = m.frames j ∧ m2.flags j = m.flags j :=
  ⟨(h.frames j (Nat.lt_succ_of_lt hj)).trans (update_of_ne (Nat.ne_of_lt hj) _ _),
    (h.flags j (Nat.lt_succ_of_lt hj)).trans (update_of_ne (Nat.ne_of_lt hj) _ _)⟩

end

section
variable [DecidableEq ε]

/-- The machine ends a statement nested `d` deep, in front of `K`, as
described by the result. -/
def Reaches (d : Nat) (K : List (Task ε σ)) (m : Machine ε σ) (r : σ × Result ε) : Prop :=
  match r.2 with
  | .normal => ∃ m', Run step m m' ∧ m'.code = K ∧ m'.store = r.1 ∧ Agree d m m'
  | .raised e => ∃ m', Run step m (m'.throw e) ∧ m'.store = r.1 ∧ Agree d m m'

theorem Reaches.of_run {d : Nat} {K : List (Task ε σ)} {m m1 : Machine ε σ}
    {r : σ × Result ε} (hrun : Run step m m1) (hag : Agree d m m1) (h : Reaches d K m1 r) :
    Reaches d K m r := by
  obtain ⟨x, r⟩ := r
  cases r with
  | normal =>
    obtain ⟨m', hrun', hcode, hstore, hag'⟩ := h
    exact ⟨m', hrun.trans hrun', hcode, hstore, hag.trans hag'⟩
  | raised e =>
    obtain ⟨m', hrun', hstore, hag'⟩ := h
    exact ⟨m', hrun.trans hrun', hstore, hag.trans hag'⟩

/-- The machine and the structured meaning agree on `s`, wherever it
stands: the innermost frame has the exception of the handler, if `q` says that it is
running one. -/
def Sim (q : Place) {p : Place} (s : Stmt ε σ p) : Prop :=
  ∀ (cur : p = .handler → Exn ε) (d : Nat) (K : List (Task ε σ)) (m : Machine ε σ),
    m.code = .run s d :: K → (q = .handler → ∀ h, (m.frames (d - 1)).exn = some (cur h)) →
    (q = .handler → 0 < d) → Reaches d K m (eval s cur m.store)

theorem sim_seq {p q : Place} {s t : Stmt ε σ p} (hs : Sim q s) (ht : Sim q t) :
    Sim q (.seq s t) := by
  intro cur d K m hcode hcur hd
  have hstep : step m = some { m with code := .run s d :: .run t d :: K } := by
    rw [step, hcode]
  refine .of_run (Run.single hstep) ⟨rfl, fun _ _ => rfl, fun _ _ => rfl, rfl⟩ ?_
  have h1 := hs cur d (.run t d :: K) { m with code := .run s d :: .run t d :: K } rfl hcur hd
  simp only [eval]
  cases hr : eval s cur m.store with
  | mk x r =>
    simp only [hr] at h1
    cases r with
    | normal =>
      obtain ⟨m1, hrun, hcode1, rfl, hag⟩ := h1
      refine .of_run hrun hag (ht cur d K m1 hcode1 (fun hq h => ?_) hd)
      rw [hag.frames (d - 1) (by have := hd hq; omega)]
      exact hcur hq h
    | raised e => exact h1

theorem evalClauses_eq (e : Exn ε) : (c : Clauses ε σ) →
    evalClauses c e = (c.pick e.exc).map fun h => eval h fun _ => e
  | .done => rfl
  | .else_ s => rfl
  | .catch_ e' s rest => by
    simp only [evalClauses, Clauses.pick]
    split_ifs
    · rfl
    · exact evalClauses_eq e rest

/-! ## The `TRY` statement -/

/-- The frame of the `TRY` at depth `d` says that the statement will end
as `r`. -/
def Pending (d : Nat) (m : Machine ε σ) : Result ε → Prop
  | .normal => m.flags d ≠ .raised
  | .raised e => m.flags d = .raised ∧ (m.frames d).exn = some e

theorem finalized_of_ne {d j : Nat} (hj : j ≠ d) {flags : Nat → Flag} :
    finalized d flags j = flags j := by
  unfold finalized
  split_ifs
  · exact update_of_ne hj _ _
  · rfl

theorem finalized_ne_entered (d : Nat) (flags : Nat → Flag) : finalized d flags d ≠ .entered := by
  unfold finalized
  split_ifs with h
  · simp
  · exact h

theorem finalized_eq_raised {d : Nat} {flags : Nat → Flag} :
    finalized d flags d = .raised ↔ flags d = .raised := by
  unfold finalized
  split_ifs with h
  · simp [h]
  · exact Iff.rfl

theorem reaches_rethrowIf {d : Nat} {K : List (Task ε σ)} {m : Machine ε σ} {r : Result ε}
    (hcode : m.code = .rethrowIf d :: K) (hr : Pending d m r) :
    Reaches d K m (m.store, r) := by
  cases r with
  | normal =>
    have hstep : step m = some { m with code := K } := by
      rw [step, hcode]
      exact if_neg hr
    exact ⟨_, Run.single hstep, rfl, rfl, ⟨rfl, fun _ _ => rfl, fun _ _ => rfl, rfl⟩⟩
  | raised e =>
    have hstep : step m = some (m.throw e) := by
      rw [step, hcode]
      simp only [if_pos hr.1, hr.2, map_some]
    exact ⟨m, Run.single hstep, rfl, Agree.refl d m⟩

/-- The block behind the `if` chain of a `TRY`: `FINALLY` and the final
rethrow. -/
theorem reaches_after {d : Nat} {K : List (Task ε σ)} {p : Place} {final : Option (Stmt ε σ p)}
    (hf : ∀ F, final = some F → Sim .plain F) (cur : p = .handler → Exn ε) {m : Machine ε σ}
    (hcode : m.code = after d final ++ K) {r : Result ε} (hr : Pending d m r) :
    Reaches d K m (evalFinal (final.map fun F => eval F cur) r m.store) := by
  cases final with
  | none => exact reaches_rethrowIf hcode hr
  | some F =>
    have hstep : step m = some
        { m with
          flags := finalized d m.flags
          code := .run F (d + 1) :: .finallyEnd d :: .rethrowIf d :: K } := by
      rw [step, hcode]
      rfl
    refine .of_run (Run.single hstep)
      ⟨rfl, fun _ _ => rfl, fun j hj => finalized_of_ne (Nat.ne_of_lt hj), rfl⟩ ?_
    have h1 := hf F rfl cur (d + 1) (.finallyEnd d :: .rethrowIf d :: K)
      { m with
        flags := finalized d m.flags
        code := .run F (d + 1) :: .finallyEnd d :: .rethrowIf d :: K } rfl nofun nofun
    simp only [map_some, evalFinal]
    simp only at h1
    cases hF : eval F cur m.store with
    | mk x rF =>
      rw [hF] at h1
      cases rF with
      | raised e =>
        obtain ⟨m2, hrun, hx, hag⟩ := h1
        exact ⟨m2, hrun, hx, hag.mono (Nat.le_succ d)⟩
      | normal =>
        obtain ⟨m2, hrun, hcode2, rfl, hag⟩ := h1
        have hflag : m2.flags d = finalized d m.flags d := hag.flags d (Nat.lt_succ_self d)
        have hframe : m2.frames d = m.frames d := hag.frames d (Nat.lt_succ_self d)
        have hpop : step m2 = some { m2 with code := .rethrowIf d :: K } := by
          rw [step, hcode2]
          exact if_neg (hflag ▸ finalized_ne_entered d m.flags)
        refine .of_run (hrun.trans (Run.single hpop)) ((hag.mono (Nat.le_succ d)).trans
          ⟨rfl, fun _ _ => rfl, fun _ _ => rfl, rfl⟩) ?_
        refine reaches_rethrowIf rfl ?_
        cases r with
        | normal =>
          rw [Pending, hflag, ne_eq, finalized_eq_raised]
          exact hr
        | raised e =>
          rw [Pending, hflag, hframe, finalized_eq_raised]
          exact hr

section
variable {d : Nat} {K : List (Task ε σ)} {p : Place} {body : Stmt ε σ p} {clauses : Clauses ε σ}
  {final : Option (Stmt ε σ p)} {m : Machine ε σ}

/-- The `if` chain with the flag `Except_raised`: a clause is selected, or
the exception stays pending. -/
theorem reaches_select (hc : ∀ e h, clauses.pick e = some h → Sim .handler h)
    (hf : ∀ F, final = some F → Sim .plain F) (cur : p = .handler → Exn ε) {e : Exn ε}
    (hcode : m.code = .select d body clauses :: (after d final ++ K))
    (hflag : m.flags d = .raised) (hexn : (m.frames d).exn = some e) :
    Reaches d K m (match evalClauses clauses e with
      | none => evalFinal (final.map fun F => eval F cur) (.raised e) m.store
      | some h =>
        match h m.store with
        | (x, .normal) => evalFinal (final.map fun F => eval F cur) .normal x
        | (x, .raised e) => (x, .raised e)) := by
  have hne : m.flags d ≠ .entered := by rw [hflag]; decide
  rw [evalClauses_eq]
  cases hpick : clauses.pick e.exc with
  | none =>
    have hstep : step m = some { m with code := after d final ++ K } := by
      rw [step, hcode]
      simp only [if_neg hne, hexn, map_some, hpick]
    exact .of_run (Run.single hstep) ⟨rfl, fun _ _ => rfl, fun _ _ => rfl, rfl⟩
      (reaches_after hf cur rfl ⟨hflag, hexn⟩)
  | some h =>
    have hstep : step m = some
        { m with
          flags := update m.flags d .handled
          code := .run h (d + 1) :: .clauseEnd d :: (after d final ++ K) } := by
      rw [step, hcode]
      simp only [if_neg hne, hexn, map_some, hpick]
    refine .of_run (Run.single hstep)
      ⟨rfl, fun _ _ => rfl, fun j hj => update_of_ne (Nat.ne_of_lt hj) _ _, rfl⟩ ?_
    have h1 := hc e.exc h hpick (fun _ => e) (d + 1) (.clauseEnd d :: (after d final ++ K))
      { m with
        flags := update m.flags d .handled
        code := .run h (d + 1) :: .clauseEnd d :: (after d final ++ K) }
      rfl (fun _ _ => hexn) (fun _ => Nat.succ_pos d)
    simp only [map_some]
    simp only at h1
    cases hh : eval h (fun _ => e) m.store with
    | mk x r =>
      rw [hh] at h1
      cases r with
      | raised e' =>
        obtain ⟨m2, hrun, hx, hag⟩ := h1
        exact ⟨m2, hrun, hx, hag.mono (Nat.le_succ d)⟩
      | normal =>
        obtain ⟨m2, hrun, hcode2, rfl, hag⟩ := h1
        have hhandled : m2.flags d = .handled :=
          (hag.flags d (Nat.lt_succ_self d)).trans (update_self ..)
        have hpop : step m2 = some { m2 with code := after d final ++ K } := by
          rw [step, hcode2]
          exact if_neg (by rw [hhandled]; decide)
        refine .of_run (hrun.trans (Run.single hpop)) ((hag.mono (Nat.le_succ d)).trans
          ⟨rfl, fun _ _ => rfl, fun _ _ => rfl, rfl⟩) (reaches_after hf cur rfl ?_)
        rw [Pending, hhandled]
        decide

theorem sim_try (final : Option (Stmt ε σ p)) (hb : Sim .plain body)
    (hc : ∀ e h, clauses.pick e = some h → Sim .handler h) (hf : ∀ F, final = some F → Sim .plain F)
    (cur : p = .handler → Exn ε) (hstep : step m = some (m.enter d body clauses final K)) :
    Reaches d K m (evalTry (eval body cur) (evalClauses clauses)
      (final.map fun F => eval F cur) m.store) := by
  have hsel : step (m.enter d body clauses final K) = some
      { m.enter d body clauses final K with
        code := .run body (d + 1) :: .bodyEnd d :: (after d final ++ K) } := by
    simp only [step, enter, update_self, if_true]
  have hrun1 := (Run.single hstep).trans (Run.single hsel)
  have h1 := hb cur (d + 1) (.bodyEnd d :: (after d final ++ K))
    { m.enter d body clauses final K with
      code := .run body (d + 1) :: .bodyEnd d :: (after d final ++ K) } rfl nofun nofun
  have hstore : (m.enter d body clauses final K).store = m.store := rfl
  simp only [hstore] at h1
  unfold evalTry
  cases hbody : eval body cur m.store with
  | mk x r =>
    rw [hbody] at h1
    cases r with
    | normal =>
      obtain ⟨m2, hrun2, hcode2, rfl, hag⟩ := h1
      have hag : Agree (d + 1) (m.enter d body clauses final K) m2 :=
        ⟨hag.stack, hag.frames, hag.flags, hag.aborted⟩
      have hflag : m2.flags d = .entered :=
        (hag.flags d (Nat.lt_succ_self d)).trans (update_self ..)
      have hstack : m2.stack = some d := hag.stack
      have hpop : step m2
          = some { m2 with code := after d final ++ K, stack := m.stack } := by
        rw [step, hcode2]
        simp only [popIf, hflag, if_true, hstack, enter_frame hag]
      refine .of_run (hrun1.trans (hrun2.trans (Run.single hpop)))
        ⟨rfl, fun j hj => (enter_below hag hj).1, fun j hj => (enter_below hag hj).2,
          hag.aborted⟩ (reaches_after hf cur rfl ?_)
      rw [Pending, hflag]
      decide
    | raised e =>
      -- the throw pops the frame and comes back behind the `setjmp`
      obtain ⟨m2, hrun2, rfl, hag⟩ := h1
      have hag : Agree (d + 1) (m.enter d body clauses final K) m2 :=
        ⟨hag.stack, hag.frames, hag.flags, hag.aborted⟩
      have hstack : m2.stack = some d := hag.stack
      have hthrow : m2.throw e =
          { m2 with
            code := .select d body clauses :: (after d final ++ K)
            stack := m.stack
            frames := update m2.frames d { m2.frames d with exn := some e }
            flags := update m2.flags d .raised } := by
        simp only [Machine.throw, hstack, enter_frame hag]
      rw [hthrow] at hrun2
      refine .of_run (hrun1.trans hrun2) ⟨rfl, fun j hj => ?_, fun j hj => ?_, hag.aborted⟩
        (reaches_select hc hf cur rfl (update_self ..) ?_)
      · exact (update_of_ne (Nat.ne_of_lt hj) _ _).trans (enter_below hag hj).1
      · exact (update_of_ne (Nat.ne_of_lt hj) _ _).trans (enter_below hag hj).2
      · simp only [update_self]

end

mutual

/-- **Simulation.** Every statement, under every continuation. -/
theorem sim : {p q : Place} → (s : Stmt ε σ p) → s.Direct q → Sim q s
  | _, _, .act f, _ => fun cur d K m hcode _ _ => by
    have hstep : step m = some { m with code := K, store := f m.store } := by
      rw [step, hcode]
    exact ⟨_, Run.single hstep, rfl, rfl, ⟨rfl, fun _ _ => rfl, fun _ _ => rfl, rfl⟩⟩
  | _, _, .seq s t, hd => sim_seq (sim s hd.1) (sim t hd.2)
  | _, _, .throw e, _ => fun cur d K m hcode _ _ => by
    have hstep : step m = some (m.throw e) := by rw [step, hcode]
    exact ⟨m, Run.single hstep, rfl, Agree.refl d m⟩
  | _, _, .rethrow, hd => fun cur d K m hcode hcur _ => by
    have hstep : step m = some (m.throw (cur rfl)) := by
      rw [step, hcode]
      simp only [hcur hd rfl, map_some]
    exact ⟨m, Run.single hstep, rfl, Agree.refl d m⟩
  | _, _, .try_ body clauses, hd => fun cur d K m hcode _ _ =>
    sim_try none (sim body hd.1) (simClauses clauses hd.2) nofun cur (by rw [step, hcode])
  | _, _, .tryFinally body clauses final, hd => fun cur d K m hcode _ _ =>
    sim_try (some final) (sim body hd.1) (simClauses clauses hd.2.1)
      (fun F hF => some.inj hF ▸ sim final hd.2.2) cur (by rw [step, hcode])

theorem simClauses : (c : Clauses ε σ) → c.Direct → ∀ e h, c.pick e = some h → Sim .handler h
  | .done, _ => fun _ _ h => nomatch h
  | .else_ s, hd => fun _ _ h => some.inj h ▸ sim s hd
  | .catch_ e' s rest, hd => fun e h hpick => by
    unfold Clauses.pick at hpick
    split_ifs at hpick
    · exact some.inj hpick ▸ sim s hd.1
    · exact simClauses rest hd.2 e h hpick

end

end

/-! ## The frame chain -/

/-- The depth of the `TRY` whose body the task belongs to: it is about to be
selected, or its end is still to come. -/
def Task.body? (flags : Nat → Flag) : Task ε σ → Option Nat
  | .select d _ _ => if flags d = .entered then some d else none
  | .bodyEnd d => some d
  | _ => none

/-- The `TRY`s whose bodies are running, innermost first. -/
def bodies (flags : Nat → Flag) (code : List (Task ε σ)) : List Nat :=
  code.filterMap (Task.body? flags)

def running (m : Machine ε σ) : List Nat := bodies m.flags m.code

/-- The link of a frame to the next one. -/
def prevOf (m : Machine ε σ) (i : Nat) : Option Nat := (m.frames i).prev

/-- A continuation of a statement nested `d` deep. A running body has its
own continuation saved in its frame. -/
inductive Laid (fr : Nat → Frame ε σ) (fl : Nat → Flag) : Nat → List (Task ε σ) → Prop where
  | nil : Laid fr fl 0 []
  | run {p d K} {s : Stmt ε σ p} : Laid fr fl d K → Laid fr fl d (.run s d :: K)
  | body {d K p clauses} {body : Stmt ε σ p} {final : Option (Stmt ε σ p)} : Laid fr fl d K →
      fl d = .entered → (fr d).env = .select d body clauses :: (after d final ++ K) →
      Laid fr fl (d + 1) (.bodyEnd d :: (after d final ++ K))
  | clause {d K p} {final : Option (Stmt ε σ p)} : Laid fr fl d K → fl d ≠ .entered →
      Laid fr fl (d + 1) (.clauseEnd d :: (after d final ++ K))
  | final {d K} : Laid fr fl d K → fl d ≠ .entered →
      Laid fr fl (d + 1) (.finallyEnd d :: .rethrowIf d :: K)

/-- The code of a reachable state: a continuation, or a `TRY` between its
parts. -/
inductive Top (fr : Nat → Frame ε σ) (fl : Nat → Flag) : List (Task ε σ) → Prop where
  | inside {d code} : Laid fr fl d code → Top fr fl code
  | select {d K p clauses} {body : Stmt ε σ p} {final : Option (Stmt ε σ p)} : Laid fr fl d K →
      (fl d = .entered → (fr d).env = .select d body clauses :: (after d final ++ K)) →
      Top fr fl (.select d body clauses :: (after d final ++ K))
  | after {d K p} (final : Option (Stmt ε σ p)) : Laid fr fl d K → Top fr fl (after d final ++ K)

section
variable {fr fr' : Nat → Frame ε σ} {fl fl' : Nat → Flag} {d : Nat}
    {K : List (Task ε σ)} {p : Place}

@[simp] theorem bodies_run (s : Stmt ε σ p) :
    bodies fl (.run s d :: K) = bodies fl K := rfl
@[simp] theorem bodies_bodyEnd : bodies fl (.bodyEnd d :: K) = d :: bodies fl K := rfl
@[simp] theorem bodies_clauseEnd : bodies fl (.clauseEnd d :: K) = bodies fl K := rfl
@[simp] theorem bodies_finallyEnd : bodies fl (.finallyEnd d :: K) = bodies fl K := rfl
@[simp] theorem bodies_rethrowIf : bodies fl (.rethrowIf d :: K) = bodies fl K := rfl

@[simp] theorem bodies_after (final : Option (Stmt ε σ p)) :
    bodies fl (after d final ++ K) = bodies fl K := by
  cases final <;> rfl

theorem bodies_select_entered {body : Stmt ε σ p} {clauses : Clauses ε σ}
    (h : fl d = .entered) : bodies fl (.select d body clauses :: K) = d :: bodies fl K := by
  simp [bodies, Task.body?, h]

theorem bodies_select_other {body : Stmt ε σ p} {clauses : Clauses ε σ}
    (h : fl d ≠ .entered) : bodies fl (.select d body clauses :: K) = bodies fl K := by
  simp [bodies, Task.body?, h]

section

variable (h : Laid fr fl d K)
include h

/-- Only what is below the depth matters. -/
theorem Laid.congr (hfr : ∀ j < d, fr' j = fr j)
    (hfl : ∀ j < d, fl' j = fl j) : Laid fr' fl' d K := by
  induction h with
  | nil => exact .nil
  | run _ ih => exact .run (ih hfr hfl)
  | @body _ _ _ clauses body _ _ he henv ih =>
    refine @Laid.body _ _ _ _ _ _ _ clauses body _
      (ih (fun j hj => hfr j (by omega)) fun j hj => hfl j (by omega)) ?_ ?_
    · rw [hfl _ (Nat.lt_succ_self _)]; exact he
    · rw [hfr _ (Nat.lt_succ_self _)]; exact henv
  | clause _ he ih =>
    refine .clause (ih (fun j hj => hfr j (by omega)) fun j hj => hfl j (by omega)) ?_
    rw [hfl _ (Nat.lt_succ_self _)]; exact he
  | final _ he ih =>
    refine .final (ih (fun j hj => hfr j (by omega)) fun j hj => hfl j (by omega)) ?_
    rw [hfl _ (Nat.lt_succ_self _)]; exact he

/-- The running bodies of a continuation do not depend on the flags, and
they are less deep than what it continues. -/
theorem Laid.running_eq (fl' : Nat → Flag) : bodies fl' K = bodies fl K := by
  induction h with
  | nil => rfl
  | run _ ih | final _ _ ih => exact ih
  | body _ _ _ ih | clause _ _ ih => simpa using ih

theorem Laid.running_lt {j : Nat} (hj : j ∈ bodies fl K) : j < d := by
  induction h with
  | nil => simp [bodies] at hj
  | run _ ih => exact ih hj
  | body _ _ _ ih =>
    simp only [bodies_bodyEnd, bodies_after, List.mem_cons] at hj
    rcases hj with rfl | hj
    · exact Nat.lt_succ_self _
    · exact Nat.lt_succ_of_lt (ih hj)
  | clause _ _ ih => exact Nat.lt_succ_of_lt (ih (by simpa using hj))
  | final _ _ ih => exact Nat.lt_succ_of_lt (ih hj)

/-- What the innermost running body has saved. -/
theorem Laid.saved {i : Nat} {l : List Nat} (hl : bodies fl K = i :: l) :
    ∃ K' p clauses, ∃ (body : Stmt ε σ p) (final : Option (Stmt ε σ p)),
      (fr i).env = .select i body clauses :: (Machine.after i final ++ K')
      ∧ Laid fr fl i K' ∧ bodies fl K' = l := by
  induction h with
  | nil => simp [bodies] at hl
  | run _ ih | final _ _ ih => exact ih hl
  | @body d K p clauses body final hK he henv ih =>
    simp only [bodies_bodyEnd, bodies_after, List.cons.injEq] at hl
    obtain ⟨rfl, hl⟩ := hl
    exact ⟨K, p, clauses, body, final, henv, hK, hl⟩
  | clause _ _ ih => exact ih (by simpa using hl)

end

end

/-- The invariant of a run: the frames on `Except_stack` are those of the
running bodies. -/
structure Nested (m : Machine ε σ) : Prop where
  top : Top m.frames m.flags m.code
  chain : Path (prevOf m) m.stack (running m) none

section
variable {m m' : Machine ε σ} {d : Nat} {K : List (Task ε σ)}

theorem Nested.init (s : Stmt ε σ .plain) (x : σ) : Nested (Machine.init s x) :=
  ⟨.inside (.run .nil), rfl⟩

/-- `Except_throw` from a statement with continuation `K`. -/
theorem Nested.throw (hK : Laid m.frames m.flags d K)
    (hchain : Path (prevOf m) m.stack (bodies m.flags K) none) (x : Exn ε) :
    Nested (m.throw x) := by
  unfold Machine.throw
  cases hstack : m.stack with
  | none => exact ⟨.inside .nil, by rw [hstack] at *; rfl⟩
  | some p =>
    rw [hstack] at hchain
    cases hl : bodies m.flags K with
    | nil => rw [hl] at hchain; cases hchain
    | cons q l =>
      rw [hl] at hchain
      obtain ⟨hq, hchain⟩ := hchain
      obtain rfl := some.inj hq
      obtain ⟨K', q, clauses, body, final, henv, hK', hl'⟩ := hK.saved hl
      have hbelow : Laid (update m.frames p { m.frames p with exn := some x })
          (update m.flags p .raised) p K' :=
        hK'.congr (fun j hj => update_of_ne (Nat.ne_of_lt hj) _ _)
          (fun j hj => update_of_ne (Nat.ne_of_lt hj) _ _)
      refine ⟨?_, ?_⟩
      · have htop := @Top.select _ _ _ _ _ _ _ clauses body final hbelow fun he => by simp at he
        rwa [← henv] at htop
      · simp only [running, henv]
        rw [bodies_select_other (by simp), bodies_after, hK'.running_eq, hl']
        refine hchain.congr fun i _ => ?_
        by_cases hi : i = p
        · subst hi; simp [prevOf]
        · simp [prevOf, hi]

theorem Nested.enter {p : Place} {body : Stmt ε σ p} {clauses : Clauses ε σ}
    (final : Option (Stmt ε σ p)) (hK : Laid m.frames m.flags d K)
    (hchain : Path (prevOf m) m.stack (bodies m.flags K) none) :
    Nested (m.enter d body clauses final K) := by
  have hbelow : Laid (m.enter d body clauses final K).frames
      (m.enter d body clauses final K).flags d K :=
    hK.congr (fun j hj => update_of_ne (Nat.ne_of_lt hj) _ _)
      (fun j hj => update_of_ne (Nat.ne_of_lt hj) _ _)
  refine ⟨.select hbelow fun _ => ?_, ?_⟩
  · simp only [Machine.enter, update_self]
  · simp only [running, Machine.enter]
    rw [bodies_select_entered (update_self ..), bodies_after, hK.running_eq]
    refine ⟨rfl, ?_⟩
    simp only [prevOf, update_self]
    refine hchain.congr fun i hi => ?_
    have hne : i ≠ d := Nat.ne_of_lt (hK.running_lt hi)
    simp [prevOf, hne]

end

section
variable [DecidableEq ε] {m m' : Machine ε σ} {d : Nat} {K : List (Task ε σ)} {p : Place}

section

variable (hK : Laid m.frames m.flags d K)
include hK

/-- A step from a statement. -/
theorem Nested.step_run {s : Stmt ε σ p}
    (hchain : Path (prevOf m) m.stack (bodies m.flags K) none) (hcode : m.code = .run s d :: K)
    (hstep : step m = some m') : Nested m' := by
  rw [step, hcode] at hstep
  cases s with
  | act f =>
    obtain rfl := some.inj hstep
    exact ⟨.inside hK, hchain⟩
  | seq s t =>
    obtain rfl := some.inj hstep
    exact ⟨.inside (.run (.run hK)), hchain⟩
  | throw x =>
    obtain rfl := some.inj hstep
    exact .throw hK hchain x
  | rethrow =>
    obtain ⟨x, -, rfl⟩ := map_eq_some_iff.mp hstep
    exact .throw hK hchain x
  | try_ body clauses =>
    obtain rfl := some.inj hstep
    exact .enter none hK hchain
  | tryFinally body clauses final =>
    obtain rfl := some.inj hstep
    exact .enter (some final) hK hchain

/-- A step at the `if` chain of a `TRY`. -/
theorem Nested.step_select {body : Stmt ε σ p} {clauses : Clauses ε σ}
    {final : Option (Stmt ε σ p)}
    (henv : m.flags d = .entered →
      (m.frames d).env = .select d body clauses :: (after d final ++ K))
    (hcode : m.code = .select d body clauses :: (after d final ++ K))
    (hchain : Path (prevOf m) m.stack (running m) none) (hstep : step m = some m') :
    Nested m' := by
  rw [running, hcode] at hchain
  rw [step, hcode] at hstep
  by_cases he : m.flags d = .entered
  · simp only [if_pos he, some.injEq] at hstep
    subst hstep
    rw [bodies_select_entered he] at hchain
    exact ⟨.inside (.run (.body hK he (henv he))), hchain⟩
  · rw [bodies_select_other he, bodies_after] at hchain
    simp only [if_neg he] at hstep
    obtain ⟨x, -, rfl⟩ := map_eq_some_iff.mp hstep
    split
    next h _ =>
      have hbelow : Laid m.frames (update m.flags d .handled) d K :=
        hK.congr (fun _ _ => rfl) fun j hj => update_of_ne (Nat.ne_of_lt hj) _ _
      refine ⟨.inside (.run (.clause hbelow (by simp))), ?_⟩
      simp only [running, bodies_run, bodies_clauseEnd, bodies_after]
      rw [hK.running_eq]
      exact hchain
    next =>
      refine ⟨.after final hK, ?_⟩
      rw [running, bodies_after]
      exact hchain

/-- A step behind the `if` chain of a `TRY`. -/
theorem Nested.step_after {final : Option (Stmt ε σ p)}
    (hcode : m.code = after d final ++ K) (hchain : Path (prevOf m) m.stack (running m) none)
    (hstep : step m = some m') : Nested m' := by
  rw [running, hcode, bodies_after] at hchain
  rw [step, hcode] at hstep
  cases final with
  | none =>
    simp only [after, List.cons_append, List.nil_append] at hstep
    split_ifs at hstep
    · obtain ⟨x, -, rfl⟩ := map_eq_some_iff.mp hstep
      exact .throw hK hchain x
    · obtain rfl := some.inj hstep
      exact ⟨.inside hK, hchain⟩
  | some F =>
    obtain rfl := some.inj hstep
    have hbelow : Laid m.frames (finalized d m.flags) d K :=
      hK.congr (fun _ _ => rfl) fun j hj => finalized_of_ne (Nat.ne_of_lt hj)
    have hsame : Path (prevOf m) m.stack (bodies (finalized d m.flags) K) none := by
      rw [hK.running_eq]
      exact hchain
    exact ⟨.inside (.run (.final hbelow (finalized_ne_entered d m.flags))), hsame⟩

end

theorem Nested.step (h : Nested m) (hstep : step m = some m') : Nested m' := by
  obtain ⟨htop, hchain⟩ := h
  generalize hc : m.code = code at htop
  cases htop with
  | select hK henv => exact .step_select hK henv hc hchain hstep
  | after final hK => exact .step_after hK hc hchain hstep
  | inside hlaid =>
    cases hlaid with
    | nil =>
      rw [Machine.step, hc] at hstep
      cases hstep
    | run hK =>
      rw [running, hc] at hchain
      exact .step_run hK hchain hc hstep
    | @body d K p clauses body final hK he henv =>
      -- the end of the body pops the frame that is on top of the stack
      rw [running, hc, bodies_bodyEnd, bodies_after] at hchain
      rw [Machine.step, hc] at hstep
      simp only [popIf, if_pos he, hchain.1, some.injEq] at hstep
      subst hstep
      refine ⟨.after final hK, ?_⟩
      rw [running, bodies_after]
      exact hchain.2
    | @clause d K p final hK he =>
      rw [running, hc, bodies_clauseEnd] at hchain
      rw [Machine.step, hc] at hstep
      simp only [popIf, if_neg he, some.injEq] at hstep
      subst hstep
      exact ⟨.after final hK, hchain⟩
    | @final d K hK he =>
      rw [running, hc, bodies_finallyEnd] at hchain
      rw [Machine.step, hc] at hstep
      simp only [popIf, if_neg he, some.injEq] at hstep
      subst hstep
      exact ⟨.after (none : Option (Stmt ε σ .plain)) hK, hchain⟩

end

/-! ## Whole programs -/

def Task.Direct : Task ε σ → Prop
  | .run s _ => ∃ q, s.Direct q
  | .select _ body clauses => body.Direct .plain ∧ clauses.Direct
  | .finalize _ final => final.Direct .plain
  | _ => True

/-- What is still to be executed, or saved in a frame, is direct. -/
structure Machine.Direct (m : Machine ε σ) : Prop where
  code : ∀ t ∈ m.code, t.Direct
  env : ∀ i, ∀ t ∈ (m.frames i).env, t.Direct

section
variable {m : Machine ε σ} {d : Nat} {K : List (Task ε σ)}

theorem Machine.Direct.throw (h : m.Direct) (x : Exn ε) : (m.throw x).Direct := by
  unfold Machine.throw
  split
  · exact ⟨nofun, h.env⟩
  next i _ =>
    refine ⟨h.env i, fun j => ?_⟩
    by_cases hj : j = i
    · subst hj
      simp only [update_self]
      exact h.env j
    · simp only [update_of_ne hj]
      exact h.env j

theorem Machine.Direct.enter {p : Place} {body : Stmt ε σ p} {clauses : Clauses ε σ}
    {final : Option (Stmt ε σ p)} (h : m.Direct) (hK : ∀ t ∈ K, t.Direct) (hb : body.Direct .plain)
    (hc : clauses.Direct) (hf : ∀ F, final = some F → F.Direct .plain) :
    (m.enter d body clauses final K).Direct := by
  have hcode : ∀ t ∈ .select d body clauses :: (after d final ++ K), t.Direct := by
    refine List.forall_mem_cons.2 ⟨⟨hb, hc⟩, List.forall_mem_append.2 ⟨?_, hK⟩⟩
    cases final with
    | none => exact List.forall_mem_singleton.2 trivial
    | some F => exact List.forall_mem_cons.2 ⟨hf F rfl, List.forall_mem_singleton.2 trivial⟩
  refine ⟨hcode, fun j => ?_⟩
  by_cases hj : j = d
  · subst hj
    simp only [Machine.enter, update_self]
    exact hcode
  · simp only [Machine.enter, update_of_ne hj]
    exact h.env j

end

variable [DecidableEq ε]

theorem Clauses.Direct.pick {e : ε} : {c : Clauses ε σ} → {h : Stmt ε σ .handler} → c.Direct →
    c.pick e = some h → h.Direct .handler
  | .done, _, _, hp => nomatch hp
  | .else_ s, _, hd, hp => some.inj hp ▸ hd
  | .catch_ e' s rest, _, hd, hp => by
    unfold Clauses.pick at hp
    split_ifs at hp
    · exact some.inj hp ▸ hd.1
    · exact Clauses.Direct.pick hd.2 hp

theorem Machine.Direct.step {m m' : Machine ε σ} (h : m.Direct) (hstep : m.step = some m') :
    m'.Direct := by
  have hcode := h.code
  rw [Machine.step] at hstep
  generalize m.code = code at hcode hstep
  have hpop : ∀ {d K}, (∀ t ∈ K, t.Direct) → m.popIf d K = some m' → m'.Direct := by
    intro d K hK hpop
    unfold popIf at hpop
    split_ifs at hpop
    · split at hpop
      · cases hpop
      · exact some.inj hpop ▸ ⟨hK, h.env⟩
    · exact some.inj hpop ▸ ⟨hK, h.env⟩
  have hthrow : ∀ {o : Option (Exn ε)}, o.map m.throw = some m' → m'.Direct := by
    intro o ho
    obtain ⟨x, -, rfl⟩ := map_eq_some_iff.1 ho
    exact h.throw x
  cases code with
  | nil => cases hstep
  | cons task K =>
    obtain ⟨ht, hK⟩ := List.forall_mem_cons.1 hcode
    cases task with
    | run s d =>
      obtain ⟨q, ht⟩ := ht
      cases s with
      | act f => exact some.inj hstep ▸ ⟨hK, h.env⟩
      | seq s t =>
        refine some.inj hstep ▸
          ⟨List.forall_mem_cons.2 ⟨⟨q, ht.1⟩, List.forall_mem_cons.2 ⟨⟨q, ht.2⟩, hK⟩⟩, h.env⟩
      | throw x => exact some.inj hstep ▸ h.throw x
      | rethrow => exact hthrow hstep
      | try_ body clauses => exact some.inj hstep ▸ h.enter hK ht.1 ht.2 nofun
      | tryFinally body clauses final =>
        exact some.inj hstep ▸ h.enter hK ht.1 ht.2.1 fun F hF => some.inj hF ▸ ht.2.2
    | select d body clauses =>
      simp only at hstep
      split_ifs at hstep
      · exact some.inj hstep ▸
          ⟨List.forall_mem_cons.2 ⟨⟨_, ht.1⟩, List.forall_mem_cons.2 ⟨trivial, hK⟩⟩, h.env⟩
      · obtain ⟨x, -, rfl⟩ := map_eq_some_iff.1 hstep
        split
        next s hs =>
          exact ⟨List.forall_mem_cons.2 ⟨⟨_, ht.2.pick hs⟩, List.forall_mem_cons.2 ⟨trivial, hK⟩⟩,
            h.env⟩
        next => exact ⟨hK, h.env⟩
    | bodyEnd d | clauseEnd d | finallyEnd d => exact hpop hK hstep
    | finalize d final =>
      exact some.inj hstep ▸
        ⟨List.forall_mem_cons.2 ⟨⟨_, ht⟩, List.forall_mem_cons.2 ⟨trivial, hK⟩⟩, h.env⟩
    | rethrowIf d =>
      simp only at hstep
      split_ifs at hstep
      · exact hthrow hstep
      · exact some.inj hstep ▸ ⟨hK, h.env⟩

def Stmt.IsTry {p : Place} : Stmt ε σ p → Prop
  | .try_ _ _ | .tryFinally _ _ _ => True
  | _ => False

/-- A `TRY` statement anywhere in a program, whatever the frames hold. -/
theorem reaches_of_isTry {p q : Place} {t : Stmt ε σ p} (ht : t.IsTry) (hd : t.Direct q) {d : Nat}
    {K : List (Task ε σ)} {m : Machine ε σ} (hcode : m.code = .run t d :: K)
    (cur : p = .handler → Exn ε) : Reaches d K m (eval t cur m.store) := by
  have hplain : t.Direct .plain := by
    cases t with
    | try_ _ _ | tryFinally _ _ _ => exact hd
    | act _ | seq _ _ | throw _ | rethrow => exact ht.elim
  exact sim t hplain cur d K m hcode nofun nofun

/-- The machine has executed the whole program, as the result says: it is at
the end, or it has aborted with the uncaught exception. -/
def Finished (m : Machine ε σ) (r : σ × Result ε) : Prop :=
  m.code = [] ∧ m.store = r.1 ∧ m.stack = none
    ∧ match r.2 with
      | .normal => m.aborted = none
      | .raised e => m.aborted = some e

/-- **Exception frames nest.** Every program in which each `RETHROW` stands in a handler of the
innermost `TRY` around it ends, when executed by the
macros, as its structured meaning says. At every point of the execution
`Except_stack` is the chain of the frames of the running `TRY` bodies, and
every `TRY` statement, wherever it stands, ends as its meaning says with
`Except_stack` as it was before it. -/
theorem frames_nest (s : Stmt ε σ .plain) (hs : s.Direct .plain) (x : σ) :
    (∃ m, Run step (Machine.init s x) m ∧ Finished m (eval s noExn x))
      ∧ ∀ m, Run step (Machine.init s x) m → Path (prevOf m) m.stack (running m) none
          ∧ ∀ {p : Place} (t : Stmt ε σ p) (d : Nat) (K : List (Task ε σ)), t.IsTry →
            m.code = .run t d :: K → ∀ cur, Reaches d K m (eval t cur m.store) := by
  refine ⟨?_, fun m hrun => ⟨?_, fun t d K ht hcode cur => ?_⟩⟩
  · have h := sim s hs noExn 0 [] (Machine.init s x) rfl nofun nofun
    change Reaches 0 [] (Machine.init s x) (eval s noExn x) at h
    cases hr : eval s noExn x with
    | mk y r =>
      rw [hr] at h
      cases r with
      | normal =>
        obtain ⟨m, hrun, hcode, hstore, hag⟩ := h
        exact ⟨m, hrun, hcode, hstore, hag.stack, hag.aborted⟩
      | raised e =>
        obtain ⟨m, hrun, hstore, hag⟩ := h
        have hthrow : m.throw e = { m with code := [], aborted := some e } := by
          rw [Machine.throw, show m.stack = none from hag.stack]
        rw [hthrow] at hrun
        exact ⟨_, hrun, rfl, hstore, hag.stack, rfl⟩
  · have hnested : Nested m := hrun.invariant (Nested.init s x) fun _ _ h hstep => h.step hstep
    exact hnested.chain
  · have hinit : (Machine.init s x).Direct := ⟨List.forall_mem_singleton.2 ⟨_, hs⟩, fun _ => nofun⟩
    have hdirect : m.Direct := hrun.invariant hinit fun _ _ h hstep => h.step hstep
    have hmem : .run t d ∈ m.code := hcode ▸ List.mem_cons_self
    obtain ⟨q, ht'⟩ := hdirect.code _ hmem
    exact reaches_of_isTry ht ht' hcode cur

/-- An exception passes a `TRY` that does not catch it, whose `FINALLY` runs
on the way, and is raised again by the handler of the next one. -/
theorem frames_nest_finally : ∃ m, Run step (Machine.init (ε := Bool) (σ := List Nat) (.try_
          (.tryFinally (.throw ⟨true, "a.c", 3⟩) (.catch_ false (.act (1 :: ·)) .done)
            (.act (2 :: ·)))
          (.catch_ true (.seq (.act (3 :: ·)) .rethrow) .done)) []) m
      ∧ Finished m ([3, 2], .raised ⟨true, "a.c", 3⟩) :=
  (frames_nest _ (by simp [Stmt.Direct, Clauses.Direct]) _).1

/-- `TRY THROW(e); CATCH(e) TRY RETHROW; CATCH(e) 1; END_TRY END_TRY`. -/
def rethrowBelow : Stmt Bool (List Nat) .plain :=
  .try_ (.throw ⟨true, "a.c", 3⟩)
    (.catch_ true (.try_ .rethrow (.catch_ true (.act (1 :: ·)) .done)) .done)

/-- The inner `TRY` should catch the exception. But `RETHROW` reads the frame of this `TRY`, in
which no exception has been stored. -/
theorem rethrowBelow_not_finished : eval rethrowBelow noExn [] = ([1], .normal) ∧
    ¬ ∃ m, Run step (Machine.init rethrowBelow []) m ∧ Finished m (eval rethrowBelow noExn []) := by
  refine ⟨rfl, ?_⟩
  rintro ⟨m, ⟨n, hrun⟩, hcode, -⟩
  have hstop : step m = none := by rw [step, hcode]
  have hstuck : RunN step 6 (Machine.init rethrowBelow []) _ :=
    .step rfl (.step rfl (.step rfl (.step rfl (.step rfl (.step rfl (.refl _))))))
  obtain ⟨k, -, hrest⟩ := hstuck.rest hrun hstop
  cases hrest with
  | refl => cases hcode
  | step h _ => cases h

end Except

end CLangProject

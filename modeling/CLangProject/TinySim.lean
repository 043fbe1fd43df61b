import CLangProject.TinyOperand
import CLangProject.TinyVm

/-!
# Tiny-C: compiler correctness

The meaning of a tree, and that the code `c` emits for it computes that
meaning on the virtual machine.

The source semantics is the language of the header comment: assignment is
an expression whose value is the assigned one, operands are evaluated from
left to right, a condition holds when it is not zero, arithmetic is modulo
`2 ^ 32`. Expressions always have a value (`eval`); statements are a
big-step relation (`Exec`), and a program diverges when it has no final
store.

- **forward** (`IsExpr.runs`, `Exec.runs`): an evaluation is mirrored by a
  run through the code, wherever the code stands and whatever lies below on
  the stack;
- **backward** (`IsStmt.exec_of_halt`): a run that halts has executed the
  statement, by strong induction on the number of steps. Each turn of a
  loop costs at least one step, and the machine is deterministic, so the
  part of the run after the condition is again a halting run.
-/

namespace CLangProject

open List Option Function

namespace TinyC

/-! ## Source semantics -/

/-- Value and final store of an expression; `none` for what is not one. -/
def eval : Node → Store → Option (Word × Store)
  | .var v, σ => some (σ v, σ)
  | .cst k, σ => some (BitVec.ofNat 32 k, σ)
  | .add x y, σ => do
    let (a, σ) ← eval x σ
    let (b, σ) ← eval y σ
    some (a + b, σ)
  | .sub x y, σ => do
    let (a, σ) ← eval x σ
    let (b, σ) ← eval y σ
    some (a - b, σ)
  | .lt x y, σ => do
    let (a, σ) ← eval x σ
    let (b, σ) ← eval y σ
    some (ltWord a b, σ)
  | .set (.var v) x, σ => do
    let (a, σ) ← eval x σ
    some (a, update σ v a)
  | _, _ => none

/-- The statement terminates from the first store in the second. -/
inductive Exec : Node → Store → Store → Prop where
  | empty {σ} : Exec .empty σ σ
  | expr {x σ a σ'} : eval x σ = some (a, σ') → Exec (.expr x) σ σ'
  | seq {x y σ σ' σ''} : Exec x σ σ' → Exec y σ' σ'' → Exec (.seq x y) σ σ''
  | if1True {c x σ a σ' σ''} : eval c σ = some (a, σ') → a ≠ 0 → Exec x σ' σ'' →
      Exec (.if1 c x) σ σ''
  | if1False {c x σ σ'} : eval c σ = some (0, σ') → Exec (.if1 c x) σ σ'
  | if2True {c x y σ a σ' σ''} : eval c σ = some (a, σ') → a ≠ 0 → Exec x σ' σ'' →
      Exec (.if2 c x y) σ σ''
  | if2False {c x y σ σ' σ''} : eval c σ = some (0, σ') → Exec y σ' σ'' → Exec (.if2 c x y) σ σ''
  | whileTrue {c x σ a σ1 σ2 σ3} : eval c σ = some (a, σ1) → a ≠ 0 → Exec x σ1 σ2 →
      Exec (.while_ c x) σ2 σ3 → Exec (.while_ c x) σ σ3
  | whileFalse {c x σ σ'} : eval c σ = some (0, σ') → Exec (.while_ c x) σ σ'
  | doTrue {x c σ σ1 a σ2 σ3} : Exec x σ σ1 → eval c σ1 = some (a, σ2) → a ≠ 0 →
      Exec (.do_ x c) σ2 σ3 → Exec (.do_ x c) σ σ3
  | doFalse {x c σ σ1 σ2} : Exec x σ σ1 → eval c σ1 = some (0, σ2) → Exec (.do_ x c) σ σ2
  | prog {x σ σ'} : Exec x σ σ' → Exec (.prog x) σ σ'

/-- The program has no final store. -/
def Diverges (x : Node) (σ : Store) : Prop := ¬∃ σ', Exec x σ σ'

variable {x : Node}

theorem IsExpr.eval_isSome (h : IsExpr x) (σ : Store) : ∃ a σ', eval x σ = some (a, σ') := by
  induction h generalizing σ with
  | var v | cst k => exact ⟨_, _, rfl⟩
  | add _ _ ihx ihy | sub _ _ ihx ihy | lt _ _ ihx ihy =>
    obtain ⟨a, σ1, hx⟩ := ihx σ
    obtain ⟨b, σ2, hy⟩ := ihy σ1
    simp [eval, hx, hy]
  | set v _ ih =>
    obtain ⟨a, σ1, hx⟩ := ih σ
    simp [eval, hx]

/-! ## Code in place -/

/-- The code of `x` stands at `b` inside `object`, with constants and jumps
that a signed byte holds. -/
structure Placed (obj : Nat → BitVec 8) (b : Nat) (x : Node) : Prop where
  code : Emitted obj b x
  consts : ∀ k ∈ x.constants, k ≤ 127
  jumps : x.ShortJumps
  fits : b + x.size ≤ objectSize

theorem IsExpr.size_pos (h : IsExpr x) : 2 ≤ x.size := by
  induction h <;> simp only [Node.size] <;> omega

theorem disp_toInt {src dst : Nat} (h : InCharRange ((dst : Int) - (src : Int))) :
    (disp src dst).toInt = (dst : Int) - (src : Int) :=
  (toInt_disp_iff src dst).mpr h

theorem signExtend_small {k : Nat} (h : k ≤ 127) :
    (BitVec.ofNat 8 k).signExtend 32 = BitVec.ofNat 32 k := by
  apply BitVec.eq_of_toInt_eq
  rw [BitVec.toInt_signExtend_of_le (by omega), (toInt_ofNat_iff k).mpr h,
    BitVec.toInt_eq_toNat_bmod, BitVec.toNat_ofNat, Int.bmod_def]
  split_ifs <;> omega

section
variable {obj : Nat → BitVec 8}

variable {x y c : Node} {b : Nat} {σ : Store} {s : Vm}

theorem IsExpr.shortJumps (h : IsExpr x) : x.ShortJumps := by
  cases h <;> trivial

/-! ## Forward -/

/-- The code of `x` at `b` pushes the value of `x`, on any stack with room
for it: every byte of code pushes at most one cell. -/
def Pushes (obj : Nat → BitVec 8) (x : Node) : Prop :=
  ∀ {b : Nat} {s : List Word} {σ σ' : Store} {a : Word}, Placed obj b x →
    s.length + x.size ≤ stackSize → eval x σ = some (a, σ') →
    Run (next obj) ⟨b, s, σ⟩ ⟨b + x.size, a :: s, σ'⟩

/-- The three binary operators: left operand, right operand, then an
instruction that replaces the two values by `f` of them. -/
theorem pushes_binary {z : Node} {op : Op} {f : Word → Word → Word}
    (hx : IsExpr x) (hy : IsExpr y) (ihx : Pushes obj x) (ihy : Pushes obj y)
    (hcode : ∀ b, Emitted obj b z → Emitted obj b x ∧ Emitted obj (b + x.size) y
      ∧ obj (b + x.size + y.size) = op.code) (hconst : z.constants = x.constants ++ y.constants)
    (hsize : z.size = x.size + y.size + 1)
    (heval : ∀ σ, eval z σ = eval x σ >>= fun p => eval y p.2 >>= fun q => some (f p.1 q.1, q.2))
    (hstep : ∀ {p s σ a b}, p < objectSize → obj p = op.code →
      step obj ⟨p, b :: a :: s, σ⟩ = .next ⟨p + 1, f a b :: s, σ⟩) : Pushes obj z := by
  intro b s σ σ' a hp hst he
  obtain ⟨ex, ey, hop⟩ := hcode b hp.code
  have hk := hp.consts
  rw [hconst, forall_mem_append] at hk
  have hfit := hp.fits
  rw [hsize] at hfit hst
  simp only [heval, Option.bind_eq_bind, Option.bind_eq_some_iff, Prod.exists] at he
  obtain ⟨u, σ1, hu, w, σ2, hw, he⟩ := he
  obtain ⟨rfl, rfl⟩ := Prod.mk.injEq .. ▸ some.inj he
  have := hx.size_pos
  have hrx := ihx ⟨ex, hk.1, hx.shortJumps, by omega⟩ (by omega : s.length + _ ≤ _) hu
  have hry := ihy (s := u :: s) ⟨ey, hk.2, hy.shortJumps, by omega⟩
    (by simp only [length_cons]; omega) hw
  have hop := Run.single (next_of_step (hstep (s := s) (σ := σ2) (a := u) (b := w) (by omega) hop))
  rw [hsize, ← Nat.add_assoc, ← Nat.add_assoc]
  exact hrx.trans (hry.trans hop)

theorem IsExpr.runs (hx : IsExpr x) : Pushes obj x := by
  induction hx with
  | var v =>
    intro b st σ σ' a hp hst he
    obtain ⟨⟨h1, h2⟩, -, -, hfit⟩ := hp
    simp only [Node.size] at hfit hst
    obtain ⟨rfl, rfl⟩ := Prod.mk.injEq .. ▸ some.inj he
    exact Run.single (next_of_step (step_ifetch (by omega) h1 h2 (by omega)))
  | cst k =>
    intro b st σ σ' a hp hst he
    obtain ⟨⟨h1, h2⟩, hk, -, hfit⟩ := hp
    simp only [Node.size] at hfit hst
    obtain ⟨rfl, rfl⟩ := Prod.mk.injEq .. ▸ some.inj he
    have hs := step_ipush (σ := σ) (by omega) h1 (by omega : st.length < stackSize)
    rw [h2, signExtend_small (hk k (by simp [Node.constants]))] at hs
    exact Run.single (next_of_step hs)
  | add hx hy ihx ihy =>
    exact pushes_binary hx hy ihx ihy (fun _ => id) rfl rfl (fun _ => rfl) step_iadd
  | sub hx hy ihx ihy =>
    exact pushes_binary hx hy ihx ihy (fun _ => id) rfl rfl (fun _ => rfl) step_isub
  | lt hx hy ihx ihy =>
    exact pushes_binary hx hy ihx ihy (fun _ => id) rfl rfl (fun _ => rfl) step_ilt
  | set v hx ih =>
    intro b st σ σ' a hp hst he
    obtain ⟨⟨hcode, h1, h2⟩, hk, -, hfit⟩ := hp
    simp only [Node.size] at hfit hst
    simp only [eval, Option.bind_eq_bind, Option.bind_eq_some_iff, Prod.exists] at he
    obtain ⟨u, σ1, hu, he⟩ := he
    obtain ⟨rfl, rfl⟩ := Prod.mk.injEq .. ▸ some.inj he
    refine (ih ⟨hcode, hk, hx.shortJumps, by omega⟩ (by omega) hu).trans ?_
    exact Run.single (next_of_step (step_istore (by omega) h1 h2))

variable {σ' : Store} {a : Word} {m m' : Vm} {t : Word → Nat} {n : Nat}

/-- A condition in a statement: the code ends in one cell on an empty
stack. -/
theorem Placed.condition (hc : IsExpr c) (hp : Placed obj b c) (he : eval c σ = some (a, σ')) :
    Run (next obj) ⟨b, [], σ⟩ ⟨b + c.size, [a], σ'⟩ := by
  refine hc.runs hp ?_ he
  have hfit := hp.fits
  simp only [objectSize, stackSize, length_nil] at hfit ⊢
  omega

/-! ### The parts of a placed statement -/

theorem Placed.seq (h : Placed obj b (.seq x y)) : Placed obj b x ∧ Placed obj (b + x.size) y := by
  obtain ⟨⟨ex, ey⟩, hk, ⟨jx, jy⟩, hfit⟩ := h
  simp only [Node.constants, forall_mem_append] at hk
  simp only [Node.size] at hfit
  exact ⟨⟨ex, hk.1, jx, by omega⟩, ⟨ey, hk.2, jy, by omega⟩⟩

section

variable (hc : IsExpr c)
include hc

theorem Placed.if1 (h : Placed obj b (.if1 c x)) :
    Placed obj b c ∧ Placed obj (b + c.size + 2) x ∧ ∀ (a : Word) (σ), step obj ⟨b + c.size, [a], σ⟩
          = .next ⟨if a = 0 then b + (Node.if1 c x).size else b + c.size + 2, [], σ⟩ := by
  obtain ⟨⟨ec, h1, h2, ex⟩, hk, ⟨j1, jx⟩, hfit⟩ := h
  simp only [Node.constants, forall_mem_append] at hk
  simp only [Node.size] at hfit ⊢
  refine ⟨⟨ec, hk.1, hc.shortJumps, by omega⟩, ⟨ex, hk.2, jx, by omega⟩, ?_⟩
  intro a σ
  refine step_jz (by omega) h1 ?_
  rw [h2, disp_toInt (by unfold InCharRange; omega)]
  omega

theorem Placed.if2 (h : Placed obj b (.if2 c x y)) :
    Placed obj b c ∧ Placed obj (b + c.size + 2) x ∧ Placed obj (b + c.size + x.size + 4) y
      ∧ (∀ (a : Word) (σ), step obj ⟨b + c.size, [a], σ⟩
          = .next ⟨if a = 0 then b + c.size + x.size + 4 else b + c.size + 2, [], σ⟩)
      ∧ ∀ σ, step obj ⟨b + c.size + 2 + x.size, [], σ⟩
          = .next ⟨b + (Node.if2 c x y).size, [], σ⟩ := by
  obtain ⟨⟨ec, h1, h2, ex, h3, h4, ey⟩, hk, ⟨j1, j2, jx, jy⟩, hfit⟩ := h
  simp only [Node.constants, forall_mem_append] at hk
  simp only [Node.size] at hfit ⊢
  refine ⟨⟨ec, hk.1.1, hc.shortJumps, by omega⟩, ⟨ex, hk.1.2, jx, by omega⟩,
    ⟨ey, hk.2, jy, by omega⟩, ?_, ?_⟩
  · intro a σ
    refine step_jz (by omega) h1 ?_
    rw [h2, disp_toInt (by unfold InCharRange; omega)]
  · intro σ
    rw [show b + c.size + 2 + x.size = b + c.size + x.size + 2 by omega]
    refine step_jmp (by omega) h3 ?_
    rw [h4, disp_toInt (by unfold InCharRange; omega)]
    omega

theorem Placed.while_ (h : Placed obj b (.while_ c x)) :
    Placed obj b c ∧ Placed obj (b + c.size + 2) x
      ∧ (∀ (a : Word) (σ), step obj ⟨b + c.size, [a], σ⟩
          = .next ⟨if a = 0 then b + (Node.while_ c x).size else b + c.size + 2, [], σ⟩)
      ∧ ∀ σ, step obj ⟨b + c.size + 2 + x.size, [], σ⟩ = .next ⟨b, [], σ⟩ := by
  obtain ⟨⟨ec, h1, h2, ex, h3, h4⟩, hk, ⟨j1, j2, jx⟩, hfit⟩ := h
  simp only [Node.constants, forall_mem_append] at hk
  simp only [Node.size] at hfit ⊢
  refine ⟨⟨ec, hk.1, hc.shortJumps, by omega⟩, ⟨ex, hk.2, jx, by omega⟩, ?_, ?_⟩
  · intro a σ
    refine step_jz (by omega) h1 ?_
    rw [h2, disp_toInt (by unfold InCharRange; omega)]
    omega
  · intro σ
    rw [show b + c.size + 2 + x.size = b + c.size + x.size + 2 by omega]
    refine step_jmp (by omega) h3 ?_
    rw [h4, disp_toInt (by unfold InCharRange; omega)]

theorem Placed.do_ (h : Placed obj b (.do_ x c)) : Placed obj b x ∧ Placed obj (b + x.size) c
      ∧ ∀ (a : Word) (σ), step obj ⟨b + x.size + c.size, [a], σ⟩
          = .next ⟨if a = 0 then b + (Node.do_ x c).size else b, [], σ⟩ := by
  obtain ⟨⟨ex, ec, h1, h2⟩, hk, ⟨j1, jx⟩, hfit⟩ := h
  simp only [Node.constants, forall_mem_append] at hk
  simp only [Node.size] at hfit ⊢
  refine ⟨⟨ex, hk.1, jx, by omega⟩, ⟨ec, hk.2, hc.shortJumps, by omega⟩, ?_⟩
  intro a σ
  rw [← Nat.add_assoc, ← Nat.add_assoc]
  refine step_jnz (by omega) h1 ?_
  rw [h2, disp_toInt (by unfold InCharRange; omega)]

end

theorem Placed.exprStmt (hx : IsExpr x) (h : Placed obj b (.expr x)) :
    Placed obj b x ∧ ∀ (a : Word) (σ), step obj ⟨b + x.size, [a], σ⟩
        = .next ⟨b + (Node.expr x).size, [], σ⟩ := by
  obtain ⟨⟨ex, h1⟩, hk, -, hfit⟩ := h
  simp only [Node.size] at hfit
  exact ⟨⟨ex, hk, hx.shortJumps, by omega⟩, fun a σ => step_ipop (by omega) h1⟩

/-! ### Statements -/

theorem run_step (h : step obj m = .next m') : Run (next obj) m m' := Run.single (next_of_step h)

/-- The condition `c`, and the step behind it. -/
theorem Placed.branch (hp : Placed obj b c) (hc : IsExpr c) (he : eval c σ = some (a, σ'))
    (hstep : ∀ a σ, step obj ⟨b + c.size, [a], σ⟩ = .next ⟨t a, [], σ⟩) :
    Run (next obj) ⟨b, [], σ⟩ ⟨t a, [], σ'⟩ :=
  (hp.condition hc he).trans (run_step (hstep a σ'))

/-- A terminating statement is mirrored by a run through its code, from
empty stack to empty stack. -/
theorem Exec.runs (h : Exec x σ σ') (hx : IsStmt x) (hp : Placed obj b x) :
    Run (next obj) ⟨b, [], σ⟩ ⟨b + x.size, [], σ'⟩ := by
  induction h generalizing b with
  | empty => exact Run.refl _
  | @expr x σ a σ1 he =>
    cases hx with
    | expr hx =>
      obtain ⟨px, hpop⟩ := hp.exprStmt hx
      exact px.branch hx he hpop
  | @seq x y _ _ _ _ _ ih1 ih2 =>
    cases hx with
    | seq hx hy =>
      obtain ⟨px, py⟩ := hp.seq
      have := (ih1 hx px).trans (ih2 hy py)
      rwa [Nat.add_assoc] at this
  | @if1True c x σ a σ1 σ2 he ha _ ih =>
    cases hx with
    | if1 hc hx =>
      obtain ⟨pc, px, hjz⟩ := hp.if1 hc
      have hbranch := pc.branch hc he hjz
      rw [if_neg ha] at hbranch
      refine hbranch.trans ?_
      have := ih hx px
      rwa [show b + c.size + 2 + x.size = b + (Node.if1 c x).size by
        simp only [Node.size]; omega] at this
  | @if1False c x σ σ1 he =>
    cases hx with
    | if1 hc hx =>
      obtain ⟨pc, px, hjz⟩ := hp.if1 hc
      exact pc.branch hc he hjz
  | @if2True c x y σ a σ1 σ2 he ha _ ih =>
    cases hx with
    | if2 hc hx hy =>
      obtain ⟨pc, px, py, hjz, hjmp⟩ := hp.if2 hc
      have hbranch := pc.branch hc he hjz
      rw [if_neg ha] at hbranch
      exact hbranch.trans ((ih hx px).trans (run_step (hjmp σ2)))
  | @if2False c x y σ σ1 σ2 he _ ih =>
    cases hx with
    | if2 hc hx hy =>
      obtain ⟨pc, px, py, hjz, hjmp⟩ := hp.if2 hc
      have hbranch := pc.branch hc he hjz
      rw [if_pos rfl] at hbranch
      refine hbranch.trans ?_
      have := ih hy py
      rwa [show b + c.size + x.size + 4 + y.size = b + (Node.if2 c x y).size by
        simp only [Node.size]; omega] at this
  | @whileTrue c x σ a σ1 σ2 σ3 he ha _ _ ih1 ih2 =>
    cases hx with
    | while_ hc hx =>
      obtain ⟨pc, px, hjz, hjmp⟩ := hp.while_ hc
      have hbranch := pc.branch hc he hjz
      rw [if_neg ha] at hbranch
      exact hbranch.trans ((ih1 hx px).trans ((run_step (hjmp σ2)).trans (ih2 (.while_ hc hx) hp)))
  | @whileFalse c x σ σ1 he =>
    cases hx with
    | while_ hc hx =>
      obtain ⟨pc, px, hjz, hjmp⟩ := hp.while_ hc
      exact pc.branch hc he hjz
  | @doTrue x c σ σ0 a σ1 σ3 _ he ha _ ih1 ih2 =>
    cases hx with
    | do_ hx hc =>
      obtain ⟨px, pc, hjnz⟩ := hp.do_ hc
      have hbranch := pc.branch hc he hjnz
      rw [if_neg ha] at hbranch
      exact (ih1 hx px).trans (hbranch.trans (ih2 (.do_ hx hc) hp))
  | @doFalse x c σ σ0 σ1 _ he ih =>
    cases hx with
    | do_ hx hc =>
      obtain ⟨px, pc, hjnz⟩ := hp.do_ hc
      exact (ih hx px).trans (pc.branch hc he hjnz)
  | prog => cases hx

/-! ## Backward -/

theorem runN_of_step (h : step obj m = .next m') (hrun : RunN (next obj) n m s)
    (hstop : next obj s = none) : ∃ k, n = k + 1 ∧ RunN (next obj) k m' s := by
  obtain ⟨k, rfl, hk⟩ := (RunN.step (next_of_step h) (.refl m')).rest hrun hstop
  exact ⟨k, by omega, hk⟩

/-- A halting run from the start of a condition has evaluated it and made the step behind
it. -/
theorem Placed.condition_of_halt (hc : IsExpr c) (hp : Placed obj b c)
    (hstep : ∀ a σ, step obj ⟨b + c.size, [a], σ⟩ = .next ⟨t a, [], σ⟩)
    (hrun : RunN (next obj) n ⟨b, [], σ⟩ s) (hstop : next obj s = none) :
    ∃ a σ' m, eval c σ = some (a, σ') ∧ m < n ∧ RunN (next obj) m ⟨t a, [], σ'⟩ s := by
  obtain ⟨a, σ', he⟩ := hc.eval_isSome σ
  obtain ⟨k, hk⟩ := hp.condition hc he
  obtain ⟨m, rfl, hm⟩ := hk.rest hrun hstop
  obtain ⟨j, rfl, hj⟩ := runN_of_step (hstep a σ') hm hstop
  exact ⟨a, σ', j, he, by omega, hj⟩

/-- A halting run from the start of a statement has executed it and reached
its end. -/
theorem IsStmt.exec_of_halt (n : Nat) (hx : IsStmt x) (hp : Placed obj b x)
    (hrun : RunN (next obj) n ⟨b, [], σ⟩ s) (hstop : next obj s = none) :
    ∃ σ' m, Exec x σ σ' ∧ m ≤ n ∧ RunN (next obj) m ⟨b + x.size, [], σ'⟩ s := by
  induction n using Nat.strong_induction_on generalizing x b σ with
  | _ n ihn =>
    -- inside, by the structure of the statement; a loop turns to `ihn`
    induction hx generalizing n b σ with
    | empty => exact ⟨σ, n, .empty, le_refl _, hrun⟩
    | expr hx =>
      obtain ⟨px, hpop⟩ := hp.exprStmt hx
      obtain ⟨a, σ1, k, he, hk, h1⟩ := px.condition_of_halt hx hpop hrun hstop
      exact ⟨σ1, k, .expr he, by omega, h1⟩
    | @seq x y _ _ ihx ihy =>
      obtain ⟨px, py⟩ := hp.seq
      obtain ⟨σ1, k, hex, hk, h1⟩ := ihx n ihn px hrun
      obtain ⟨σ2, m, hey, hm, h2⟩ := ihy k (fun m hm => ihn m (by omega)) py h1
      rw [Nat.add_assoc] at h2
      exact ⟨σ2, m, .seq hex hey, by omega, h2⟩
    | @if1 c x hc _ ih =>
      obtain ⟨pc, px, hjz⟩ := hp.if1 hc
      obtain ⟨a, σ1, k, he, hk, h2⟩ := pc.condition_of_halt hc hjz hrun hstop
      by_cases ha : a = 0
      · subst ha
        exact ⟨σ1, k, .if1False he, by omega, h2⟩
      · rw [if_neg ha] at h2
        obtain ⟨σ2, m, hex, hm, h3⟩ := ih k (fun m hm => ihn m (by omega)) px h2
        refine ⟨σ2, m, .if1True he ha hex, by omega, ?_⟩
        rwa [show b + c.size + 2 + x.size = b + (Node.if1 c x).size by
          simp only [Node.size]; omega] at h3
    | @if2 c x y hc _ _ ihx ihy =>
      obtain ⟨pc, px, py, hjz, hjmp⟩ := hp.if2 hc
      obtain ⟨a, σ1, k, he, hk, h2⟩ := pc.condition_of_halt hc hjz hrun hstop
      by_cases ha : a = 0
      · subst ha
        obtain ⟨σ2, m, hey, hm, h3⟩ := ihy k (fun m hm => ihn m (by omega)) py h2
        refine ⟨σ2, m, .if2False he hey, by omega, ?_⟩
        rwa [show b + c.size + x.size + 4 + y.size = b + (Node.if2 c x y).size by
          simp only [Node.size]; omega] at h3
      · rw [if_neg ha] at h2
        obtain ⟨σ2, m, hex, hm, h3⟩ := ihx k (fun m hm => ihn m (by omega)) px h2
        obtain ⟨m, rfl, h4⟩ := runN_of_step (hjmp _) h3 hstop
        exact ⟨σ2, m, .if2True he ha hex, by omega, h4⟩
    | @while_ c x hc hx ih =>
      obtain ⟨pc, px, hjz, hjmp⟩ := hp.while_ hc
      obtain ⟨a, σ1, k, he, hk, h2⟩ := pc.condition_of_halt hc hjz hrun hstop
      by_cases ha : a = 0
      · subst ha
        exact ⟨σ1, k, .whileFalse he, by omega, h2⟩
      · rw [if_neg ha] at h2
        obtain ⟨σ2, m, hex, hm, h3⟩ := ih k (fun m hm => ihn m (by omega)) px h2
        obtain ⟨m, rfl, h4⟩ := runN_of_step (hjmp _) h3 hstop
        obtain ⟨σ3, m', hew, hm', h5⟩ := ihn m (by omega) (.while_ hc hx) hp h4
        exact ⟨σ3, m', .whileTrue he ha hex hew, by omega, h5⟩
    | @do_ x c hx hc ih =>
      obtain ⟨px, pc, hjnz⟩ := hp.do_ hc
      obtain ⟨σ1, k, hex, hk, h1⟩ := ih n ihn px hrun
      obtain ⟨a, σ2, m, he, hm, h3⟩ := pc.condition_of_halt hc hjnz h1 hstop
      by_cases ha : a = 0
      · subst ha
        exact ⟨σ2, m, .doFalse hex he, by omega, h3⟩
      · rw [if_neg ha] at h3
        obtain ⟨σ3, m', hed, hm', h4⟩ := ihn m (by omega) (.do_ hx hc) hp h3
        exact ⟨σ3, m', .doTrue hex he ha hed, by omega, h4⟩

end

/-! ## The compiler is correct -/

/-- `run` on `obj` reaches a `HALT` with the variables as in `σ`. -/
def Halts (obj : Nat → BitVec 8) (σ : Store) : Prop :=
  ∃ m, Run (next obj) Vm.init m ∧ AtHalt obj m ∧ m.globals = σ

/-- **Compiler correctness.** Take any tree of the parser with constants up
to 127 whose code fits in `object`, every jump displacement fitting a
signed byte. From all variables zero, `run` reaches `HALT` with the final
store of the program if it terminates, and never reaches `HALT` if it
diverges. -/
theorem compile_correct {x : Node} (hx : IsProg x) {obj : Nat → BitVec 8}
    (hobj : compile x = some obj) (hconst : ∀ k ∈ x.constants, k ≤ 127)
    (hjump : ∀ s ∈ jumpSites 0 x, InCharRange ((s.2 : Int) - (s.1 : Int))) :
    (∀ σ, Exec x (fun _ => 0) σ → Halts obj σ)
      ∧ (Diverges x (fun _ => 0) → ∀ m, Run (next obj) Vm.init m → ¬ AtHalt obj m) := by
  obtain ⟨hem, hfit⟩ := compile_emitted hx hobj
  have hshort := (shortJumps_iff 0 x).mpr hjump
  cases hx with
  | @prog x hx =>
    obtain ⟨hcode, hhalt⟩ := hem
    simp only [Node.size] at hfit
    have hp : Placed obj 0 x := ⟨hcode, hconst, hshort, by omega⟩
    constructor
    · intro σ hexec
      cases hexec with
      | prog hexec => exact ⟨_, hexec.runs hx hp, ⟨by simp only; omega, hhalt⟩, rfl⟩
    · rintro hdiv m ⟨n, hrun⟩ hm
      obtain ⟨σ', -, hexec, -⟩ := hx.exec_of_halt n hp hrun hm.next_none
      exact hdiv ⟨σ', .prog hexec⟩

/-- `if (a<1) b=5;` from all variables zero. -/
theorem compile_correct_if :
    IsProg (.prog (.if1 (.lt (.var 0) (.cst 1)) (.expr (.set (.var 1) (.cst 5)))))
      ∧ ∃ obj, compile (.prog (.if1 (.lt (.var 0) (.cst 1))
          (.expr (.set (.var 1) (.cst 5))))) = some obj
        ∧ Halts obj (update (fun _ => 0) 1 5) := by
  have hx : IsProg (.prog (.if1 (.lt (.var 0) (.cst 1)) (.expr (.set (.var 1) (.cst 5))))) :=
    .prog (.if1 (.lt (.var 0) (.cst 1)) (.expr (.set 1 (.cst 5))))
  refine ⟨hx, _, rfl, (compile_correct hx rfl (by decide) ?_).1 _ ?_⟩
  · simp [jumpSites, Node.size, InCharRange]
  · exact .prog (.if1True (a := 1) rfl (by decide) (.expr rfl))

end TinyC

end CLangProject

import CLangProject.Linked
import CLangProject.Steps

/-!
# Exceptions: the macros of `except.h` and `Except_throw`

A program with `TRY` statements, and two meanings of it. `step` runs it the
way the macros expand: `TRY` puts a frame on `Except_stack` and saves the
rest of the program with `setjmp`, `Except_throw` pops the first frame and
jumps to what it saved, and the volatile flag decides at the end of every
part whether the frame still has to be popped. `eval` is the structured
meaning: an exception goes to the innermost `TRY` whose body is running.

Statements carry their place in their type: a `RETHROW` can be written inside
of a handler only. Its structured meaning is to raise the exception of that
handler again. The macro reads the `Except_frame` of the innermost `TRY` around
it, which is another one in the body or in the `FINALLY` block of a further `TRY`
inside of the handler; `Direct` excludes that.

Frames are automatic variables; the one of a `TRY` nested `d` deep is known
by its depth `d`.
-/

namespace CLangProject

open Function

namespace Except

/-- An exception, identified by its address, with the coordinates it was
thrown at. -/
structure Exn (ε : Type) where
  exc : ε
  file : String
  line : Nat
deriving Repr, DecidableEq

/-! ## Programs -/

/-- Whether a statement stands inside of a handler. -/
inductive Place where
  | plain
  | handler

mutual

inductive Stmt (ε σ : Type) : Place → Type where
  | act {p} (f : σ → σ) : Stmt ε σ p
  | seq {p} (s t : Stmt ε σ p) : Stmt ε σ p
  | throw {p} (x : Exn ε) : Stmt ε σ p
  | rethrow : Stmt ε σ .handler
  /-- `TRY body clauses END_TRY`. -/
  | try_ {p} (body : Stmt ε σ p) (clauses : Clauses ε σ) : Stmt ε σ p
  /-- `TRY body clauses FINALLY final END_TRY`. -/
  | tryFinally {p} (body : Stmt ε σ p) (clauses : Clauses ε σ) (final : Stmt ε σ p) : Stmt ε σ p

/-- The `CATCH` clauses in order, closed by an `ELSE` or by nothing. -/
inductive Clauses (ε σ : Type) : Type where
  | done : Clauses ε σ
  | else_ (s : Stmt ε σ .handler) : Clauses ε σ
  | catch_ (e : ε) (s : Stmt ε σ .handler) (rest : Clauses ε σ) : Clauses ε σ

end

variable {ε σ : Type}

mutual

/-- Every `RETHROW` stands in a handler of the innermost `TRY` around it; `q` says whether the
innermost `TRY` around the statement is running one of its handlers. -/
def Stmt.Direct : {p : Place} → Stmt ε σ p → (q : Place) → Prop
  | _, .act _, _ => True
  | _, .seq s t, q => s.Direct q ∧ t.Direct q
  | _, .throw _, _ => True
  | _, .rethrow, q => q = .handler
  | _, .try_ body clauses, _ => body.Direct .plain ∧ clauses.Direct
  | _, .tryFinally body clauses final, _ => body.Direct .plain ∧ clauses.Direct ∧
      final.Direct .plain

def Clauses.Direct : Clauses ε σ → Prop
  | .done => True
  | .else_ s => s.Direct .handler
  | .catch_ _ s rest => s.Direct .handler ∧ rest.Direct

end

variable [DecidableEq ε]

/-- The clause the chain of `else if`s selects. -/
def Clauses.pick (e : ε) : Clauses ε σ → Option (Stmt ε σ .handler)
  | .done => none
  | .else_ s => some s
  | .catch_ e' s rest => if e = e' then some s else rest.pick e

/-! ## Structured meaning -/

inductive Result (ε : Type) where
  | normal
  | raised (x : Exn ε)
deriving Repr, DecidableEq

/-- After the body or a handler: `FINALLY` runs, and then the statement
ends as `r` says, unless `FINALLY` itself raised an exception. -/
def evalFinal (final : Option (σ → σ × Result ε)) (r : Result ε) (x : σ) : σ × Result ε :=
  match final with
  | none => (x, r)
  | some f =>
    match f x with
    | (x, .normal) => (x, r)
    | (x, .raised e) => (x, .raised e)

/-- A `TRY` statement, from the meanings of its parts. An exception of a
handler leaves the statement at once. -/
def evalTry (body : σ → σ × Result ε) (handler : Exn ε → Option (σ → σ × Result ε))
    (final : Option (σ → σ × Result ε)) (x : σ) : σ × Result ε :=
  match body x with
  | (x, .normal) => evalFinal final .normal x
  | (x, .raised e) =>
    match handler e with
    | none => evalFinal final (.raised e) x
    | some h =>
      match h x with
      | (x, .normal) => evalFinal final .normal x
      | (x, .raised e) => (x, .raised e)

/-- Outside of a handler no exception is being handled. -/
def noExn : Place.plain = .handler → Exn ε := nofun

mutual

/-- `cur` is the exception being handled, where there is one. -/
def eval : {p : Place} → Stmt ε σ p → (p = .handler → Exn ε) → σ → σ × Result ε
  | _, .act f, _, x => (f x, .normal)
  | _, .seq s t, cur, x =>
    match eval s cur x with
    | (x, .normal) => eval t cur x
    | (x, .raised e) => (x, .raised e)
  | _, .throw e, _, x => (x, .raised e)
  | _, .rethrow, cur, x => (x, .raised (cur rfl))
  | _, .try_ body clauses, cur, x => evalTry (eval body cur) (evalClauses clauses) none x
  | _, .tryFinally body clauses final, cur, x =>
    evalTry (eval body cur) (evalClauses clauses) (some (eval final cur)) x

/-- The first clause that matches the exception. -/
def evalClauses : Clauses ε σ → Exn ε → Option (σ → σ × Result ε)
  | .done, _ => none
  | .else_ s, e => some (eval s fun _ => e)
  | .catch_ e' s rest, e => if e.exc = e' then some (eval s fun _ => e) else evalClauses rest e

end

/-! ## The macros -/

/-- The values of `Except_flag`. -/
inductive Flag where
  | entered | raised | handled | finalized
deriving Repr, DecidableEq

/-- A piece of the expanded program that is still to be executed. -/
inductive Task (ε σ : Type) : Type where
  /-- A statement nested `d` deep. -/
  | run {p : Place} (s : Stmt ε σ p) (d : Nat)
  /-- Behind the `setjmp`: the chain of `if`s over the flag. -/
  | select (d : Nat) {p : Place} (body : Stmt ε σ p) (clauses : Clauses ε σ)
  /-- `if (Except_flag == Except_entered) Except_stack = Except_stack->prev;`
  at the end of the body, of a clause, of `FINALLY`. -/
  | bodyEnd (d : Nat)
  | clauseEnd (d : Nat)
  | finallyEnd (d : Nat)
  /-- The block of `FINALLY`, with its assignment to the flag. -/
  | finalize (d : Nat) {p : Place} (final : Stmt ε σ p)
  /-- `if (Except_flag == Except_raised) RETHROW;`. -/
  | rethrowIf (d : Nat)

/-- `Except_Frame`. `file`, `line` and `exception` are written together, by
`Except_throw`; before that they are indeterminate. -/
structure Frame (ε σ : Type) where
  prev : Option Nat
  env : List (Task ε σ)
  exn : Option (Exn ε)

structure Machine (ε σ : Type) where
  code : List (Task ε σ)
  store : σ
  /-- `Except_stack`. -/
  stack : Option Nat
  frames : Nat → Frame ε σ
  flags : Nat → Flag
  /-- The exception with which `abort` was called. -/
  aborted : Option (Exn ε)

namespace Machine

def init (s : Stmt ε σ .plain) (x : σ) : Machine ε σ where
  code := [.run s 0]
  store := x
  stack := none
  frames := fun _ => ⟨none, [], none⟩
  flags := fun _ => .entered
  aborted := none

/-- `Except_throw`. `setjmp` returns a second time, with `Except_raised`. -/
def throw (x : Exn ε) (m : Machine ε σ) : Machine ε σ :=
  match m.stack with
  | none => { m with code := [], aborted := some x }
  | some p =>
    { m with
      code := (m.frames p).env
      stack := (m.frames p).prev
      frames := update m.frames p { m.frames p with exn := some x }
      flags := update m.flags p .raised }

/-- What stands behind the `if` chain of a `TRY`. -/
def after (d : Nat) {p : Place} : Option (Stmt ε σ p) → List (Task ε σ)
  | none => [.rethrowIf d]
  | some final => [.finalize d final, .rethrowIf d]

/-- `TRY`: the frame goes on the stack, and `setjmp` returns 0. -/
def enter (d : Nat) {p : Place} (body : Stmt ε σ p) (clauses : Clauses ε σ)
    (final : Option (Stmt ε σ p)) (K : List (Task ε σ)) (m : Machine ε σ) :
    Machine ε σ :=
  { m with
    code := .select d body clauses :: (after d final ++ K)
    stack := some d
    frames := update m.frames d ⟨m.stack, .select d body clauses :: (after d final ++ K), none⟩
    flags := update m.flags d .entered }

/-- `if (Except_flag == Except_entered) Except_flag = Except_finalized;`. -/
def finalized (d : Nat) (flags : Nat → Flag) : Nat → Flag :=
  if flags d = .entered then update flags d .finalized else flags

/-- The end of a part; `none` when NULL is followed. -/
def popIf (d : Nat) (K : List (Task ε σ)) (m : Machine ε σ) : Option (Machine ε σ) :=
  if m.flags d = .entered then
    match m.stack with
    | none => none
    | some p => some { m with code := K, stack := (m.frames p).prev }
  else some { m with code := K }

def step (m : Machine ε σ) : Option (Machine ε σ) :=
  match m.code with
  | [] => none
  | .run (.act f) _ :: K => some { m with code := K, store := f m.store }
  | .run (.seq s t) d :: K => some { m with code := .run s d :: .run t d :: K }
  | .run (.throw x) _ :: _ => some (m.throw x)
  | .run .rethrow d :: _ => (m.frames (d - 1)).exn.map m.throw
  | .run (.try_ body clauses) d :: K => some (m.enter d body clauses none K)
  | .run (.tryFinally body clauses final) d :: K =>
    some (m.enter d body clauses (some final) K)
  | .select d body clauses :: K =>
    if m.flags d = .entered then
      some { m with code := .run body (d + 1) :: .bodyEnd d :: K }
    else
      (m.frames d).exn.map fun x =>
        match clauses.pick x.exc with
        | some h =>
          { m with
            flags := update m.flags d .handled
            code := .run h (d + 1) :: .clauseEnd d :: K }
        | none => { m with code := K }
  | .bodyEnd d :: K => m.popIf d K
  | .clauseEnd d :: K => m.popIf d K
  | .finallyEnd d :: K => m.popIf d K
  | .finalize d final :: K =>
    some
      { m with
        flags := finalized d m.flags
        code := .run final (d + 1) :: .finallyEnd d :: K }
  | .rethrowIf d :: K =>
    if m.flags d = .raised then (m.frames d).exn.map m.throw
    else some { m with code := K }

end Machine

end Except

end CLangProject

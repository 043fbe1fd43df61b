import CLangProject.Steps
import CLangProject.TinyGen

/-!
# Tiny-C: the virtual machine

`run` of `tinyc.c`: one `step` is one pass through the `switch`. The
machine reads raw bytes from `object`; nothing tells it which of them are
opcodes. What C leaves undefined is the outcome `fault`: leaving `object`,
popping an empty stack, pushing onto a full one, indexing `globals`
outside `0..25`. A byte without a `case`, `HALT` among them, ends the loop
(`stop`).

The step lemmas at the bottom compute one instruction each, from the bytes
at `pc`; the simulation and the stack analysis use only those.
-/

namespace CLangProject

open Function

namespace TinyC

/-- An `int`, with arithmetic modulo `2 ^ 32`. -/
abbrev Word := BitVec 32

/-- The values of `globals[26]`. -/
abbrev Store := Fin 26 → Word

/-- The decoder's side of the instruction `enum`. -/
def Op.ofCode (b : BitVec 8) : Option Op :=
  if b = 0 then some .ifetch else if b = 1 then some .istore
  else if b = 2 then some .ipush else if b = 3 then some .ipop
  else if b = 4 then some .iadd else if b = 5 then some .isub
  else if b = 6 then some .ilt else if b = 7 then some .jz
  else if b = 8 then some .jnz else if b = 9 then some .jmp
  else if b = 10 then some .halt else none

@[simp] theorem Op.ofCode_code (op : Op) : Op.ofCode op.code = some op := by
  cases op <;> rfl

/-- `pc`, the cells of `stack` below `sp` with the top first, and
`globals`. -/
structure Vm where
  pc : Nat
  stack : List Word
  globals : Store

/-- The number of cells of `stack`. -/
def stackSize : Nat := 1000

inductive Outcome where
  | next (m : Vm)
  | stop
  | fault

/-- `globals[*p]`: the byte at `p` as an index. -/
def index (obj : Nat → BitVec 8) (p : Nat) : Option (Fin 26) :=
  if p < objectSize then
    if h : 0 ≤ (obj p).toInt ∧ (obj p).toInt < 26 then
      some ⟨(obj p).toInt.toNat, by omega⟩
    else none
  else none

/-- `pc += *pc` with `pc` at `p`. -/
def jump (obj : Nat → BitVec 8) (p : Nat) : Option Nat :=
  if p < objectSize then
    let target := (p : Int) + (obj p).toInt
    if 0 ≤ target then some target.toNat else none
  else none

/-- `*sp++ = w`. -/
def push (w : Word) (st : List Word) : Option (List Word) :=
  if st.length < stackSize then some (w :: st) else none

def ltWord (a b : Word) : Word := if a.slt b then 1 else 0

def step (obj : Nat → BitVec 8) (m : Vm) : Outcome :=
  if m.pc < objectSize then
    match Op.ofCode (obj m.pc) with
    | some .ifetch =>
      match index obj (m.pc + 1) with
      | some v =>
        match push (m.globals v) m.stack with
        | some st => .next { m with pc := m.pc + 2, stack := st }
        | none => .fault
      | none => .fault
    | some .istore =>
      match index obj (m.pc + 1), m.stack with
      | some v, a :: _ =>
        .next { m with pc := m.pc + 2, globals := update m.globals v a }
      | _, _ => .fault
    | some .ipush =>
      if m.pc + 1 < objectSize then
        match push ((obj (m.pc + 1)).signExtend 32) m.stack with
        | some st => .next { m with pc := m.pc + 2, stack := st }
        | none => .fault
      else .fault
    | some .ipop =>
      match m.stack with
      | _ :: st => .next { m with pc := m.pc + 1, stack := st }
      | [] => .fault
    | some .iadd =>
      match m.stack with
      | b :: a :: st => .next { m with pc := m.pc + 1, stack := (a + b) :: st }
      | _ => .fault
    | some .isub =>
      match m.stack with
      | b :: a :: st => .next { m with pc := m.pc + 1, stack := (a - b) :: st }
      | _ => .fault
    | some .ilt =>
      match m.stack with
      | b :: a :: st => .next { m with pc := m.pc + 1, stack := ltWord a b :: st }
      | _ => .fault
    | some .jmp =>
      match jump obj (m.pc + 1) with
      | some t => .next { m with pc := t }
      | none => .fault
    | some .jz =>
      match m.stack with
      | a :: st =>
        if a = 0 then
          match jump obj (m.pc + 1) with
          | some t => .next { m with pc := t, stack := st }
          | none => .fault
        else .next { m with pc := m.pc + 2, stack := st }
      | [] => .fault
    | some .jnz =>
      match m.stack with
      | a :: st =>
        if a ≠ 0 then
          match jump obj (m.pc + 1) with
          | some t => .next { m with pc := t, stack := st }
          | none => .fault
        else .next { m with pc := m.pc + 2, stack := st }
      | [] => .fault
    | some .halt => .stop
    | none => .stop
  else .fault

/-- The machine as a transition system; `stop` and `fault` have no next
state. -/
def next (obj : Nat → BitVec 8) (m : Vm) : Option Vm :=
  match step obj m with
  | .next m' => some m'
  | _ => none

/-- `run` starts at the first byte with an empty stack and all variables
zero. -/
def Vm.init : Vm := { pc := 0, stack := [], globals := fun _ => 0 }

/-- The machine stands on a `HALT`. -/
def AtHalt (obj : Nat → BitVec 8) (m : Vm) : Prop := m.pc < objectSize ∧ obj m.pc = Op.halt.code

variable {obj : Nat → BitVec 8} {m : Vm}

theorem next_of_step {m' : Vm} (h : step obj m = .next m') : next obj m = some m' := by
  rw [next, h]

theorem AtHalt.next_none (h : AtHalt obj m) : next obj m = none := by
  simp [next, step, h.1, h.2]

/-! ## One instruction at a time -/

section
variable {obj : Nat → BitVec 8} {p : Nat} {s : List Word} {σ : Store}

variable {v : Fin 26} {q t : Nat} {a b : Word}

theorem index_ofNat (hq : q < objectSize) (h : obj q = BitVec.ofNat 8 v) :
    index obj q = some v := by
  have hv : (obj q).toInt = v := by
    rw [h, BitVec.toInt_eq_toNat_bmod, BitVec.toNat_ofNat, Int.bmod_def]
    split_ifs <;> omega
  simp only [index, if_pos hq, hv]
  rw [dif_pos (by omega)]
  simp

theorem jump_to (hq : q < objectSize) (h : (obj q).toInt = (t : Int) - (q : Int)) :
    jump obj q = some t := by
  simp only [jump, if_pos hq, h]
  rw [if_pos (by omega)]
  congr 1; omega

section

variable (hp : p + 1 < objectSize)
include hp

theorem step_ifetch (h : obj p = Op.ifetch.code)
    (hv : obj (p + 1) = BitVec.ofNat 8 v) (hst : s.length < stackSize) :
    step obj ⟨p, s, σ⟩ = .next ⟨p + 2, σ v :: s, σ⟩ := by
  simp [step, h, show p < objectSize by omega, index_ofNat hp hv, push, hst]

theorem step_istore (h : obj p = Op.istore.code) (hv : obj (p + 1) = BitVec.ofNat 8 v) :
    step obj ⟨p, a :: s, σ⟩ = .next ⟨p + 2, a :: s, update σ v a⟩ := by
  simp [step, h, show p < objectSize by omega, index_ofNat hp hv]

theorem step_ipush (h : obj p = Op.ipush.code) (hst : s.length < stackSize) :
    step obj ⟨p, s, σ⟩ = .next ⟨p + 2, (obj (p + 1)).signExtend 32 :: s, σ⟩ := by
  simp [step, h, show p < objectSize by omega, hp, push, hst]

end

section

variable (hp : p < objectSize)
include hp

theorem step_ipop (h : obj p = Op.ipop.code) : step obj ⟨p, a :: s, σ⟩ = .next ⟨p + 1, s, σ⟩ := by
  simp [step, h, hp]

theorem step_iadd (h : obj p = Op.iadd.code) :
    step obj ⟨p, b :: a :: s, σ⟩ = .next ⟨p + 1, (a + b) :: s, σ⟩ := by
  simp [step, h, hp]

theorem step_isub (h : obj p = Op.isub.code) :
    step obj ⟨p, b :: a :: s, σ⟩ = .next ⟨p + 1, (a - b) :: s, σ⟩ := by
  simp [step, h, hp]

theorem step_ilt (h : obj p = Op.ilt.code) :
    step obj ⟨p, b :: a :: s, σ⟩ = .next ⟨p + 1, ltWord a b :: s, σ⟩ := by
  simp [step, h, hp]

end

section

variable (hp : p + 1 < objectSize)
include hp

theorem step_jmp (h : obj p = Op.jmp.code)
    (ht : (obj (p + 1)).toInt = (t : Int) - ((p + 1 : Nat) : Int)) :
    step obj ⟨p, s, σ⟩ = .next ⟨t, s, σ⟩ := by
  simp [step, h, show p < objectSize by omega, jump_to hp ht]

theorem step_jz (h : obj p = Op.jz.code)
    (ht : (obj (p + 1)).toInt = (t : Int) - ((p + 1 : Nat) : Int)) :
    step obj ⟨p, a :: s, σ⟩ = .next ⟨if a = 0 then t else p + 2, s, σ⟩ := by
  simp only [step, h, show p < objectSize by omega, Op.ofCode_code, jump_to hp ht, if_true]
  split_ifs <;> rfl

theorem step_jnz (h : obj p = Op.jnz.code)
    (ht : (obj (p + 1)).toInt = (t : Int) - ((p + 1 : Nat) : Int)) :
    step obj ⟨p, a :: s, σ⟩ = .next ⟨if a = 0 then p + 2 else t, s, σ⟩ := by
  simp only [step, h, show p < objectSize by omega, Op.ofCode_code, jump_to hp ht, if_true]
  by_cases ha : a = 0
  · simp [ha]
  · simp only [ne_eq, ha, not_false_eq_true, if_true, if_false]

end

end

end TinyC

end CLangProject

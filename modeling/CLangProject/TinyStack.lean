import CLangProject.TinySim

/-!
# Tiny-C: stack safety of the virtual machine

`depths` lays the stack depth alongside the code: one entry per byte,
`some k` on an opcode that is reached with `k` cells on the stack, `none`
on an operand. It is computed from the tree alone.

The invariant of a run is that `pc` stands on an opcode and the stack has
the depth written there. One step keeps it (`IsExpr.steady`,
`IsStmt.steady`): inside a part of the code the next state is either inside
that part or at its end, and the depth at the end of a part is the depth
at the start of what follows. The parts are glued by prefix arguments on
the lists, so a loop's back edge is one more entry to look up.

Constants may have any value here: a constant that does not fit its byte
changes what is computed, not where the stack stands.
-/

namespace CLangProject

open List

namespace TinyC

variable {x c : Node} {b b' k o : Nat} {m m' : Vm} {whole : List (Option Nat)}

/-! ## Depths -/

/-- The depth at each byte of the code of `x`, entered with `d` cells. A
statement is entered with none. -/
def depths : Nat → Node → List (Option Nat)
  | d, .var _ | d, .cst _ => [some d, none]
  | d, .add x y | d, .sub x y | d, .lt x y =>
    depths d x ++ depths (d + 1) y ++ [some (d + 2)]
  | d, .set _ x => depths d x ++ [some (d + 1), none]
  | _, .if1 c x => depths 0 c ++ [some 1, none] ++ depths 0 x
  | _, .if2 c x y =>
    depths 0 c ++ [some 1, none] ++ depths 0 x ++ [some 0, none] ++ depths 0 y
  | _, .while_ c x => depths 0 c ++ [some 1, none] ++ depths 0 x ++ [some 0, none]
  | _, .do_ x c => depths 0 x ++ depths 0 c ++ [some 1, none]
  | _, .empty => []
  | _, .seq x y => depths 0 x ++ depths 0 y
  | _, .expr x => depths 0 x ++ [some 1]
  | _, .prog x => depths 0 x ++ [some 0]

/-- The depth at the opcode at address `p` of a program; `none` where no
opcode stands. -/
def depthAt (x : Node) (p : Nat) : Option Nat := ((depths 0 x)[p]?).join

@[simp] theorem length_depths (d : Nat) (x : Node) : (depths d x).length = x.size := by
  induction x generalizing d <;>
    simp_all only [depths, Node.size, length_append, length_cons, length_nil] <;>
    omega

theorem IsExpr.depths_cons (h : IsExpr x) (d : Nat) : ∃ l, depths d x = some d :: l := by
  induction h with
  | var v | cst k => exact ⟨_, rfl⟩
  | add _ _ ih _ | sub _ _ ih _ | lt _ _ ih _ | set _ _ ih =>
    obtain ⟨l, hl⟩ := ih
    exact ⟨_, by rw [depths, hl]; rfl⟩

theorem closed_of_cons {l : List (Option Nat)} (h : depths 0 x = some 0 :: l) :
    ∃ l, ∀ rest, depths 0 x ++ some 0 :: rest = some 0 :: (l ++ rest) :=
  ⟨l ++ [some 0], fun rest => by simp [h]⟩

/-- The depths of a statement, followed by the depth 0 behind it, start
at 0. -/
theorem IsStmt.closed_cons (h : IsStmt x) :
    ∃ l, ∀ rest, depths 0 x ++ some 0 :: rest = some 0 :: (l ++ rest) := by
  induction h with
  | if1 hc _ _ | if2 hc _ _ _ _ | while_ hc _ _ | expr hc =>
    obtain ⟨l, hl⟩ := hc.depths_cons 0
    exact closed_of_cons (by rw [depths, hl]; rfl)
  | @do_ x c _ hc ih =>
    obtain ⟨l, hl⟩ := ih
    obtain ⟨l', hl'⟩ := hc.depths_cons 0
    exact ⟨l ++ l' ++ [some 1, none] ++ [some 0], fun rest => by simp [depths, hl, hl']⟩
  | empty => exact ⟨[], fun rest => rfl⟩
  | @seq x y _ _ ihx ihy =>
    obtain ⟨l, hl⟩ := ihx
    obtain ⟨l', hl'⟩ := ihy
    exact ⟨l ++ l', fun rest => by simp [depths, hl, hl']⟩

/-! ## Looking up a list of parts -/

theorem getElem?_append_cases {β : Type} {as bs : List β} {v : β} (h : (as ++ bs)[o]? = some v) :
    as[o]? = some v ∨ ∃ o', o = as.length + o' ∧ bs[o']? = some v := by
  rcases Nat.lt_or_ge o as.length with hlt | hge
  · rw [List.getElem?_append_left hlt] at h
    exact Or.inl h
  · rw [List.getElem?_append_right hge] at h
    exact Or.inr ⟨o - as.length, by omega, h⟩

theorem getElem?_of_prefix {β : Type} {pre part whole : List β}
    (hpre : pre ++ part <+: whole) {v : β} (h : part[o]? = some v) :
    whole[pre.length + o]? = some v := by
  obtain ⟨rest, rfl⟩ := hpre
  have ho : o < part.length := (List.getElem?_eq_some_iff.mp h).1
  rw [append_assoc, List.getElem?_append_right (by omega), Nat.add_sub_cancel_left,
    List.getElem?_append_left ho]
  exact h

/-! ## One step -/

section
variable {obj : Nat → BitVec 8}

/-- The machine steps to a state whose `pc` and depth are listed in `l`, the
depths of code that stands at `b`. -/
def Goes (obj : Nat → BitVec 8) (b : Nat) (l : List (Option Nat)) (m : Vm) : Prop :=
  ∃ m' o, step obj m = .next m' ∧ m'.pc = b + o ∧ l[o]? = some (some m'.stack.length)

/-- A step inside a part is a step inside the whole. -/
theorem Goes.lift {part : List (Option Nat)}
    (h : Goes obj b' part m) (pre : List (Option Nat)) (hb : b' = b + pre.length)
    (hpre : pre ++ part <+: whole) :
    Goes obj b whole m := by
  obtain ⟨m', o, hs, hpc, hl⟩ := h
  exact ⟨m', pre.length + o, hs, by omega, getElem?_of_prefix hpre hl⟩

/-- A step to the place behind `pre`, where the listed depth is the new
one. -/
theorem Goes.to (pre : List (Option Nat)) (hs : step obj m = .next m')
    (hpc : m'.pc = b + pre.length) (hpre : pre ++ [some m'.stack.length] <+: whole) :
    Goes obj b whole m :=
  ⟨m', pre.length, hs, hpc, by simpa using getElem?_of_prefix hpre (o := 0) rfl⟩

/-- From every state inside `part`, which stands behind `pre`, the machine steps
to a state listed in `whole`. -/
def Covers (obj : Nat → BitVec 8) (b : Nat) (whole pre part : List (Option Nat)) : Prop :=
  ∀ (o : Nat) (m : Vm), m.pc = b + pre.length + o → part[o]? = some (some m.stack.length) →
    Goes obj b whole m

variable {pre l l' : List (Option Nat)}

theorem Covers.append (h : Covers obj b whole pre l) (h' : Covers obj b whole (pre ++ l) l') :
    Covers obj b whole pre (l ++ l') := by
  intro o m hpc ho
  rcases getElem?_append_cases ho with hi | ⟨i, rfl, hi⟩
  · exact h o m hpc hi
  · exact h' i m (by rw [length_append]; omega) hi

/-- Inside the code of `x` at `b`, entered with `d` cells and left with `e`,
the machine makes a step and stays in the code or leaves it at its end. -/
def Steady (obj : Nat → BitVec 8) (d e : Nat) (x : Node) : Prop :=
  ∀ b : Nat, Emitted obj b x → x.ShortJumps → b + x.size ≤ objectSize →
    d + x.size ≤ stackSize → Covers obj b (depths d x ++ [some e]) [] (depths d x)

variable {n : Nat} {y : Node}

theorem exists_cons_of_length {st : List Word} (h : st.length = n + 1) :
    ∃ a st', st = a :: st' ∧ st'.length = n := by
  cases st with
  | nil => simp at h
  | cons a st' => exact ⟨a, st', rfl, by simpa using h⟩

/-- An instruction of one byte. -/
theorem opcode_inv (h : [some k][o]? = some (some n)) : o = 0 ∧ n = k := by
  cases o with
  | zero => simpa [eq_comm] using h
  | succ o => simp at h

/-- An instruction with an operand byte. -/
theorem opcode_operand_inv (h : [some k, none][o]? = some (some n)) : o = 0 ∧ n = k := by
  match o with
  | 0 => simpa [eq_comm] using h
  | 1 => simp at h
  | o + 2 => simp at h

section

variable (h : ∀ {m : Vm}, m.pc = b + pre.length → m.stack.length = k → Goes obj b whole m)
include h

/-- An instruction of one byte. -/
theorem covers_opcode : Covers obj b whole pre [some k] := by
  intro o m hpc ho
  obtain ⟨rfl, hlen⟩ := opcode_inv ho
  exact h hpc hlen

/-- An instruction with an operand byte. -/
theorem covers_operand : Covers obj b whole pre [some k, none] := by
  intro o m hpc ho
  obtain ⟨rfl, hlen⟩ := opcode_operand_inv ho
  exact h hpc hlen

end

/-- The code of `x` inside other code, with `pre` before it. -/
theorem Steady.covers {d e : Nat} (h : Steady obj d e x) (hem : Emitted obj b' x)
    (hj : x.ShortJumps) (hfit : b' + x.size ≤ objectSize) (hroom : d + x.size ≤ stackSize)
    (hb : b' = b + pre.length) (hpre : pre ++ depths d x ++ [some e] <+: whole) :
    Covers obj b whole pre (depths d x) := by
  intro o m hpc ho
  refine (h b' hem hj hfit hroom o m (by rw [hpc, hb]; rfl) ho).lift pre hb ?_
  rwa [← append_assoc]

theorem steady_binary {d : Nat} {z : Node} {op : Op} {f : Word → Word → Word} (hx : IsExpr x)
    (hy : IsExpr y) (ihx : Steady obj d (d + 1) x) (ihy : Steady obj (d + 1) (d + 2) y)
    (hcode : ∀ b, Emitted obj b z → Emitted obj b x ∧ Emitted obj (b + x.size) y ∧
      obj (b + x.size + y.size) = op.code)
    (hsize : z.size = x.size + y.size + 1)
    (hdep : depths d z = depths d x ++ depths (d + 1) y ++ [some (d + 2)])
    (hstep : ∀ {p st σ a b}, p < objectSize → obj p = op.code → step obj ⟨p, b :: a :: st, σ⟩ =
      .next ⟨p + 1, f a b :: st, σ⟩) :
    Steady obj d (d + 1) z := by
  intro b hem _ hfit hroom
  obtain ⟨ex, ey, hop⟩ := hcode b hem
  have hpos := hx.size_pos
  rw [hsize] at hfit hroom
  rw [hdep]
  obtain ⟨l, hl⟩ := hy.depths_cons (d + 1)
  refine .append (.append (ihx.covers ex hx.shortJumps (by omega) (by omega) rfl ?_)
    (ihy.covers ey hy.shortJumps (by omega) (by omega) (by simp) ?_)) (covers_opcode ?_)
  · exact ⟨l ++ [some (d + 2)] ++ [some (d + 1)], by simp [hl]⟩
  · exact ⟨[some (d + 1)], by simp⟩
  · rintro ⟨p, st, σ⟩ hpc hlen
    obtain ⟨w, st1, rfl, hlen1⟩ := exists_cons_of_length hlen
    obtain ⟨u, st2, rfl, hlen2⟩ := exists_cons_of_length hlen1
    obtain rfl : p = b + x.size + y.size := by simpa [Nat.add_assoc] using hpc
    refine Goes.to (depths d x ++ depths (d + 1) y ++ [some (d + 2)])
      (hstep (by omega) hop) (by simp; omega) ?_
    exact ⟨[], by simp [hlen2]⟩

theorem IsExpr.steady (hx : IsExpr x) (d : Nat) : Steady obj d (d + 1) x := by
  induction hx generalizing d with
  | var v =>
    intro b hem _ hfit hroom
    refine covers_operand ?_
    rintro ⟨p, st, σ⟩ hpc hlen
    obtain rfl : p = b := hpc
    simp only [Node.size] at hfit hroom hlen
    refine Goes.to ([some d, none]) (step_ifetch (by omega) hem.1 hem.2 (by omega)) rfl ?_
    exact ⟨[], by simp [depths, hlen]⟩
  | cst k =>
    intro b hem _ hfit hroom
    refine covers_operand ?_
    rintro ⟨p, st, σ⟩ hpc hlen
    obtain rfl : p = b := hpc
    simp only [Node.size] at hfit hroom hlen
    refine Goes.to ([some d, none]) (step_ipush (by omega) hem.1 (by omega)) rfl ?_
    exact ⟨[], by simp [depths, hlen]⟩
  | add hx hy ihx ihy =>
    exact steady_binary hx hy (ihx d) (ihy (d + 1)) (fun _ => id) rfl rfl step_iadd
  | sub hx hy ihx ihy =>
    exact steady_binary hx hy (ihx d) (ihy (d + 1)) (fun _ => id) rfl rfl step_isub
  | lt hx hy ihx ihy =>
    exact steady_binary hx hy (ihx d) (ihy (d + 1)) (fun _ => id) rfl rfl step_ilt
  | @set v x hx ih =>
    rintro b ⟨ex, h1, h2⟩ - hfit hroom
    simp only [Node.size] at hfit hroom
    refine .append ((ih d).covers ex hx.shortJumps (by omega) (by omega) rfl
      ⟨[none, some (d + 1)], by simp [depths]⟩) (covers_operand ?_)
    rintro ⟨p, st, σ⟩ hpc hlen
    obtain ⟨u, st, rfl, hlen⟩ := exists_cons_of_length hlen
    obtain rfl : p = b + x.size := by simpa using hpc
    refine Goes.to (depths d x ++ [some (d + 1), none])
      (step_istore (by omega) h1 h2) (by simp; omega) ?_
    exact ⟨[], by simp [depths, hlen]⟩

/-- Code that fits into `object` needs less than the stack. -/
theorem room_of_fit (hfit : b + x.size ≤ objectSize) : 0 + x.size ≤ stackSize := by
  simp only [objectSize, stackSize] at hfit ⊢
  omega

/-- The code of an expression inside a statement: one cell is left on the stack behind it. -/
theorem covers_condition (hc : IsExpr c) (hem : Emitted obj b' c) (hfit : b' + c.size ≤ objectSize)
    (hb : b' = b + pre.length) (hpre : pre ++ depths 0 c ++ [some 1] <+: whole) :
    Covers obj b whole pre (depths 0 c) :=
  (hc.steady 0).covers hem hc.shortJumps hfit (room_of_fit hfit) hb hpre

/-- The code of a statement inside a statement: the stack is empty behind it. -/
theorem covers_stmt (ih : Steady obj 0 0 x) (hem : Emitted obj b' x) (hj : x.ShortJumps)
    (hfit : b' + x.size ≤ objectSize) (hb : b' = b + pre.length)
    (hpre : pre ++ depths 0 x ++ [some 0] <+: whole) : Covers obj b whole pre (depths 0 x) :=
  ih.covers hem hj hfit (room_of_fit hfit) hb hpre

/-- The `JZ` behind the condition `c`, over the statement `x`: to the place behind `dest`, or
into the statement. -/
theorem covers_jz {t : Nat} (hx : IsStmt x) (h1 : obj (b + c.size) = Op.jz.code)
    (h2 : obj (b + c.size + 1) = disp (b + c.size + 1) t)
    (ht : InCharRange ((t : Int) - ((b + c.size + 1 : Nat) : Int)))
    (hfit : b + c.size + 1 < objectSize) (dest : List (Option Nat)) (hdest : t = b + dest.length)
    (hjump : dest ++ [some 0] <+: whole)
    (hbody : depths 0 c ++ [some 1, none] ++ (depths 0 x ++ [some 0]) <+: whole) :
    Covers obj b whole (depths 0 c) [some 1, none] := by
  refine covers_operand ?_
  rintro ⟨p, st, σ⟩ hpc hlen
  obtain ⟨u, st, rfl, hst⟩ := exists_cons_of_length hlen
  obtain rfl : p = b + c.size := by simpa using hpc
  have hs := step_jz (a := u) (s := st) (σ := σ) hfit h1 (by rw [h2, disp_toInt ht])
  by_cases hu : u = 0
  · rw [if_pos hu] at hs
    exact Goes.to dest hs hdest (by simpa [hst] using hjump)
  · rw [if_neg hu] at hs
    obtain ⟨l, hl⟩ := hx.closed_cons
    refine Goes.to (depths 0 c ++ [some 1, none]) hs (by simp; omega) (IsPrefix.trans ?_ hbody)
    exact ⟨l, by simp [hst, hl]⟩

/-- A `JMP` to the place behind `dest`. -/
theorem covers_jmp {t : Nat} (h1 : obj b' = Op.jmp.code) (h2 : obj (b' + 1) = disp (b' + 1) t)
    (ht : InCharRange ((t : Int) - ((b' + 1 : Nat) : Int))) (hfit : b' + 1 < objectSize)
    (hb : b' = b + pre.length) (dest : List (Option Nat)) (hdest : t = b + dest.length)
    (hjump : dest ++ [some 0] <+: whole) : Covers obj b whole pre [some 0, none] := by
  refine covers_operand ?_
  rintro ⟨p, st, σ⟩ hpc hlen
  obtain rfl : p = b' := hpc.trans hb.symm
  have hs := step_jmp (s := st) (σ := σ) hfit h1 (by rw [h2, disp_toInt ht])
  exact Goes.to dest hs hdest (by simpa [hlen] using hjump)

section

variable (hc : IsExpr c) (hx : IsStmt x)
include hc hx

theorem steady_if1 (ih : Steady obj 0 0 x) : Steady obj 0 0 (.if1 c x) := by
  rintro b ⟨ec, h1, h2, ex⟩ ⟨j1, jx⟩ hfit -
  simp only [Node.size] at hfit
  refine .append (.append (covers_condition hc ec (by omega) rfl ?_) (covers_jz hx h1 h2
    (by unfold InCharRange; omega) (by omega) (depths 0 (.if1 c x)) (by simp [Node.size]; omega) ?_
    ?_)) (covers_stmt ih ex jx (by omega) (by simp; omega) ?_)
  · exact ⟨[none] ++ depths 0 x ++ [some 0], by simp [depths]⟩
  · exact ⟨[], by simp⟩
  · exact ⟨[], by simp [depths]⟩
  · exact ⟨[], by simp [depths]⟩

theorem steady_if2 (hy : IsStmt y) (ihx : Steady obj 0 0 x)
    (ihy : Steady obj 0 0 y) : Steady obj 0 0 (.if2 c x y) := by
  rintro b ⟨ec, h1, h2, ex, h3, h4, ey⟩ ⟨j1, j2, jx, jy⟩ hfit -
  simp only [Node.size] at hfit
  obtain ⟨l, hl⟩ := hy.closed_cons
  refine .append (.append (.append (.append (covers_condition hc ec (by omega) rfl ?_)
    (covers_jz hx h1 h2 (by unfold InCharRange; omega) (by omega)
      (depths 0 c ++ [some 1, none] ++ depths 0 x ++ [some 0, none]) (by simp; omega) ?_ ?_))
    (covers_stmt ihx ex jx (by omega) (by simp; omega) ?_))
    (covers_jmp h3 h4 (by unfold InCharRange; omega) (by omega) (by simp; omega)
      (depths 0 (.if2 c x y)) (by simp [Node.size]; omega) ?_))
    (covers_stmt ihy ey jy (by omega) (by simp; omega) ?_)
  · exact ⟨[none] ++ depths 0 x ++ [some 0, none] ++ depths 0 y ++ [some 0], by simp [depths]⟩
  · exact ⟨l, by simp [depths, hl]⟩
  · exact ⟨[none] ++ depths 0 y ++ [some 0], by simp [depths]⟩
  · exact ⟨[none] ++ depths 0 y ++ [some 0], by simp [depths]⟩
  · exact ⟨[], by simp⟩
  · exact ⟨[], by simp [depths]⟩

theorem steady_while (ih : Steady obj 0 0 x) : Steady obj 0 0 (.while_ c x) := by
  rintro b ⟨ec, h1, h2, ex, h3, h4⟩ ⟨j1, j2, jx⟩ hfit -
  simp only [Node.size] at hfit
  obtain ⟨l, hl⟩ := hc.depths_cons 0
  refine .append (.append (.append (covers_condition hc ec (by omega) rfl ?_) (covers_jz hx h1 h2
    (by unfold InCharRange; omega) (by omega) (depths 0 (.while_ c x)) (by simp [Node.size]; omega)
    ?_ ?_)) (covers_stmt ih ex jx (by omega) (by simp; omega) ?_))
    (covers_jmp h3 h4 (by unfold InCharRange; omega) (by omega) (by simp; omega) [] rfl ?_)
  · exact ⟨[none] ++ depths 0 x ++ [some 0, none] ++ [some 0], by simp [depths]⟩
  · exact ⟨[], by simp⟩
  · exact ⟨[none] ++ [some 0], by simp [depths]⟩
  · exact ⟨[none] ++ [some 0], by simp [depths]⟩
  · -- the back edge
    exact ⟨l ++ [some 1, none] ++ depths 0 x ++ [some 0, none] ++ [some 0], by simp [depths, hl]⟩

end

theorem steady_do (hx : IsStmt x) (hc : IsExpr c) (ih : Steady obj 0 0 x) :
    Steady obj 0 0 (.do_ x c) := by
  rintro b ⟨ex, ec, h1, h2⟩ ⟨j1, jx⟩ hfit -
  simp only [Node.size] at hfit
  obtain ⟨l, hl⟩ := hc.depths_cons 0
  refine .append (.append (covers_stmt ih ex jx (by omega) rfl ?_)
    (covers_condition hc ec (by omega) (by simp) ?_)) (covers_operand ?_)
  · exact ⟨l ++ [some 1, none] ++ [some 0], by simp [depths, hl]⟩
  · exact ⟨[none] ++ [some 0], by simp [depths]⟩
  rintro ⟨p, st, σ⟩ hpc hlen
  obtain ⟨u, st1, rfl, hlen1⟩ := exists_cons_of_length hlen
  obtain rfl : p = b + x.size + c.size := by simpa [Nat.add_assoc] using hpc
  have hs := step_jnz (a := u) (s := st1) (σ := σ) (t := b) (by omega) h1
    (by rw [h2, disp_toInt (by unfold InCharRange; omega)])
  by_cases hu : u = 0
  · rw [if_pos hu] at hs
    refine Goes.to (depths 0 (.do_ x c)) hs (by simp [Node.size]; omega) ?_
    exact ⟨[], by simp [hlen1]⟩
  · rw [if_neg hu] at hs
    obtain ⟨l', hl'⟩ := hx.closed_cons
    refine Goes.to [] hs rfl ?_
    exact ⟨l' ++ l ++ [some 1, none] ++ [some 0], by simp [depths, hl, hlen1, hl']⟩

theorem IsStmt.steady (hx : IsStmt x) : Steady obj 0 0 x := by
  induction hx with
  | if1 hc hx ih => exact steady_if1 hc hx ih
  | if2 hc hx hy ihx ihy => exact steady_if2 hc hx hy ihx ihy
  | while_ hc hx ih => exact steady_while hc hx ih
  | do_ hx hc ih => exact steady_do hx hc ih
  | empty =>
    intro b _ _ _ _ o m _ ho
    simp [depths] at ho
  | @seq x y hx hy ihx ihy =>
    rintro b ⟨ex, ey⟩ ⟨jx, jy⟩ hfit -
    simp only [Node.size] at hfit
    obtain ⟨l, hl⟩ := hy.closed_cons
    exact .append (covers_stmt ihx ex jx (by omega) rfl ⟨l, by simp [depths, hl]⟩)
      (covers_stmt ihy ey jy (by omega) (by simp) ⟨[], by simp [depths]⟩)
  | @expr x hx =>
    rintro b ⟨ex, h1⟩ - hfit -
    simp only [Node.size] at hfit
    refine .append (covers_condition hx ex (by omega) rfl ⟨[some 0], by simp [depths]⟩)
      (covers_opcode ?_)
    rintro ⟨p, st, σ⟩ hpc hlen
    obtain ⟨u, st1, rfl, hlen1⟩ := exists_cons_of_length hlen
    obtain rfl : p = b + x.size := by simpa using hpc
    refine Goes.to (depths 0 x ++ [some 1]) (step_ipop (by omega) h1) (by simp; omega) ?_
    exact ⟨[], by simp [depths, hlen1]⟩

end

/-! ## Statement starts and opcode boundaries -/

/-- The address of the first byte of every statement of `x`, whose code
stands at `b`. -/
def stmtStarts : Nat → Node → List Nat
  | b, .if1 c x => b :: stmtStarts (b + c.size + 2) x
  | b, .if2 c x y =>
    b :: (stmtStarts (b + c.size + 2) x ++ stmtStarts (b + c.size + x.size + 4) y)
  | b, .while_ c x => b :: stmtStarts (b + c.size + 2) x
  | b, .do_ x _ => b :: stmtStarts b x
  | b, .seq x y => b :: (stmtStarts b x ++ stmtStarts (b + x.size) y)
  | b, .empty | b, .expr _ => [b]
  | b, .prog x => stmtStarts b x
  | _, .var _ | _, .cst _ | _, .add _ _ | _, .sub _ _ | _, .lt _ _ | _, .set _ _ => []

/-- Depth 0 is listed at `a`, an address of the code that stands at `b`. -/
def ZeroAt (b : Nat) (l : List (Option Nat)) (a : Nat) : Prop :=
  ∃ o, a = b + o ∧ l[o]? = some (some 0)

variable {a : Nat} {obj : Nat → BitVec 8}

theorem ZeroAt.lift {part : List (Option Nat)} (h : ZeroAt b' part a) (pre : List (Option Nat))
    (hb : b' = b + pre.length) (hpre : pre ++ part <+: whole) : ZeroAt b whole a := by
  obtain ⟨o, rfl, ho⟩ := h
  exact ⟨pre.length + o, by omega, getElem?_of_prefix hpre ho⟩

theorem IsStmt.zero_start (h : IsStmt x) (b : Nat) : ZeroAt b (depths 0 x ++ [some 0]) b := by
  obtain ⟨l, hl⟩ := h.closed_cons
  exact ⟨0, rfl, by rw [hl]; rfl⟩

/-- Depth 0 is listed at the start of every statement. -/
theorem IsStmt.zero_starts (hx : IsStmt x) (ha : a ∈ stmtStarts b x) :
    ZeroAt b (depths 0 x ++ [some 0]) a := by
  induction hx generalizing b with
  | empty | expr =>
    obtain rfl := mem_singleton.mp ha
    first | exact IsStmt.empty.zero_start _ | exact (IsStmt.expr ‹_›).zero_start _
  | @if1 c x hc hx ih =>
    rcases mem_cons.mp ha with rfl | ha
    · exact (IsStmt.if1 hc hx).zero_start _
    · exact (ih ha).lift (depths 0 c ++ [some 1, none]) (by simp; omega) ⟨[], by simp [depths]⟩
  | @if2 c x y hc hx hy ihx ihy =>
    rcases mem_cons.mp ha with rfl | ha
    · exact (IsStmt.if2 hc hx hy).zero_start _
    rcases mem_append.mp ha with ha | ha
    · exact (ihx ha).lift (depths 0 c ++ [some 1, none]) (by simp; omega)
        ⟨[none] ++ depths 0 y ++ [some 0], by simp [depths]⟩
    · exact (ihy ha).lift (depths 0 c ++ [some 1, none] ++ depths 0 x ++ [some 0, none])
        (by simp; omega) ⟨[], by simp [depths]⟩
  | @while_ c x hc hx ih =>
    rcases mem_cons.mp ha with rfl | ha
    · exact (IsStmt.while_ hc hx).zero_start _
    · exact (ih ha).lift (depths 0 c ++ [some 1, none]) (by simp; omega)
        ⟨[none] ++ [some 0], by simp [depths]⟩
  | @do_ x c hx hc ih =>
    rcases mem_cons.mp ha with rfl | ha
    · exact (IsStmt.do_ hx hc).zero_start _
    · obtain ⟨l, hl⟩ := hc.depths_cons 0
      exact (ih ha).lift [] rfl ⟨l ++ [some 1, none] ++ [some 0], by simp [depths, hl]⟩
  | @seq x y hx hy ihx ihy =>
    rcases mem_cons.mp ha with rfl | ha
    · exact (IsStmt.seq hx hy).zero_start _
    rcases mem_append.mp ha with ha | ha
    · obtain ⟨l, hl⟩ := hy.closed_cons
      exact (ihx ha).lift [] rfl ⟨l, by simp [depths, hl]⟩
    · exact (ihy ha).lift (depths 0 x) (by simp) ⟨[], by simp [depths]⟩

/-- The number of bytes of an instruction. -/
def Op.length : Op → Nat
  | .ifetch | .istore | .ipush | .jz | .jnz | .jmp => 2
  | .ipop | .iadd | .isub | .ilt | .halt => 1

/-- The addresses at which an instruction starts when the code is read
from its first byte on. -/
inductive Boundary (obj : Nat → BitVec 8) : Nat → Prop where
  | zero : Boundary obj 0
  | next {p op} : Boundary obj p → obj p = Op.code op → Boundary obj (p + op.length)

/-- Every listed depth of the code at `b` is listed at a boundary, and so
is the end of the code. -/
structure Bounded (obj : Nat → BitVec 8) (b : Nat) (l : List (Option Nat)) : Prop where
  inside : ∀ {o k}, l[o]? = some (some k) → Boundary obj (b + o)
  ends : Boundary obj (b + l.length)

section
variable {obj : Nat → BitVec 8}

theorem Bounded.nil (h : Boundary obj b) : Bounded obj b [] := ⟨fun ho => by simp at ho, h⟩

theorem Bounded.append {l l' : List (Option Nat)} (h : Bounded obj b l)
    (h' : Boundary obj b' → Bounded obj b' l') (hb : b' = b + l.length) :
    Bounded obj b (l ++ l') := by
  subst hb
  have h' := h' h.ends
  refine ⟨fun ho => ?_, by simpa [Nat.add_assoc] using h'.ends⟩
  rcases getElem?_append_cases ho with hi | ⟨i, rfl, hi⟩
  · exact h.inside hi
  · simpa [Nat.add_assoc] using h'.inside hi

variable {op : Op}

theorem Bounded.one (h : Boundary obj b) (hop : obj b = op.code) (hlen : op.length = 1) :
    Bounded obj b [some k] :=
  ⟨fun ho => by obtain ⟨rfl, -⟩ := opcode_inv ho; exact h, by simpa [hlen] using h.next hop⟩

theorem Bounded.two (h : Boundary obj b) (hop : obj b = op.code) (hlen : op.length = 2) :
    Bounded obj b [some k, none] :=
  ⟨fun ho => by obtain ⟨rfl, -⟩ := opcode_operand_inv ho; exact h, by simpa [hlen] using h.next hop⟩

theorem IsExpr.bounded (hx : IsExpr x) {d : Nat} (he : Emitted obj b x)
    (hb : Boundary obj b) : Bounded obj b (depths d x) := by
  induction hx generalizing b d with
  | var v | cst k => exact .two hb he.1 rfl
  | add hx hy ihx ihy | sub hx hy ihx ihy | lt hx hy ihx ihy =>
    exact ((ihx he.1 hb).append (ihy he.2.1) (by simp)).append
      (fun h => .one h he.2.2 rfl) (by simp +arith)
  | set v hx ih => exact (ih he.1 hb).append (fun h => .two h he.2.1 rfl) (by simp)

theorem IsStmt.bounded (hx : IsStmt x) (he : Emitted obj b x)
    (hb : Boundary obj b) : Bounded obj b (depths 0 x) := by
  induction hx generalizing b with
  | if1 hc hx ih =>
    obtain ⟨ec, h1, -, ex⟩ := he
    exact ((hc.bounded ec hb).append (fun h => .two h h1 rfl) (by simp)).append
      (ih ex) (by simp +arith)
  | if2 hc hx hy ihx ihy =>
    obtain ⟨ec, h1, -, ex, h2, -, ey⟩ := he
    have b1 := (hc.bounded (d := 0) ec hb).append (fun h => .two (k := 1) h h1 rfl) (by simp)
    have b2 := b1.append (ihx ex) (by simp +arith)
    have b3 := b2.append (fun h => .two (k := 0) h h2 rfl) (by simp +arith)
    exact b3.append (ihy ey) (by simp +arith)
  | while_ hc hx ih =>
    obtain ⟨ec, h1, -, ex, h2, -⟩ := he
    have b1 := (hc.bounded (d := 0) ec hb).append (fun h => .two (k := 1) h h1 rfl) (by simp)
    have b2 := b1.append (ih ex) (by simp +arith)
    exact b2.append (fun h => .two h h2 rfl) (by simp +arith)
  | do_ hx hc ih =>
    obtain ⟨ex, ec, h1, -⟩ := he
    exact ((ih ex hb).append (hc.bounded ec) (by simp)).append
      (fun h => .two h h1 rfl) (by simp +arith)
  | empty => exact .nil hb
  | seq hx hy ihx ihy => exact (ihx he.1 hb).append (ihy he.2) (by simp)
  | expr hx => exact (hx.bounded he.1 hb).append (fun h => .one h he.2 rfl) (by simp)

end

/-! ## Every reachable state -/

/-- The number of cells below `sp` that an instruction pops or reads. -/
def Op.reads : Op → Nat
  | .istore | .ipop | .jz | .jnz => 1
  | .iadd | .isub | .ilt => 2
  | .ifetch | .ipush | .jmp | .halt => 0

theorem index_range {p : Nat} {v : Fin 26} (h : index obj p = some v) :
    0 ≤ (obj p).toInt ∧ (obj p).toInt < 26 := by
  unfold index at h
  split_ifs at h with h1 h2
  exact h2

/-- The instruction at `pc` finds the cells and the variable it uses. -/
def Served (obj : Nat → BitVec 8) (m : Vm) : Prop :=
  ∃ op, Op.ofCode (obj m.pc) = some op ∧ op.reads ≤ m.stack.length ∧ (op = .ifetch ∨ op = .istore →
      0 ≤ (obj (m.pc + 1)).toInt ∧ (obj (m.pc + 1)).toInt < 26)

theorem push_length {w : Word} {s s' : List Word} (h : push w s = some s') :
    s'.length ≤ stackSize := by
  unfold push at h
  split_ifs at h with hlt
  obtain rfl := Option.some.inj h
  exact hlt

/-- An instruction that is executed without a fault was served, and it
leaves the stack within its bounds. -/
theorem served_of_next (h : step obj m = .next m') :
    Served obj m ∧ (m.stack.length ≤ stackSize → m'.stack.length ≤ stackSize) := by
  unfold step at h
  split at h
  case isFalse => cases h
  cases hop : Op.ofCode (obj m.pc) with
  | none => simp [hop] at h
  | some op =>
    cases op with
    | ifetch =>
      simp only [hop] at h
      split at h
      next v hv =>
        split at h
        next s hs =>
          cases h
          exact ⟨⟨_, hop, Nat.zero_le _, fun _ => index_range hv⟩, fun _ => push_length hs⟩
        next => cases h
      next => cases h
    | istore =>
      simp only [hop] at h
      split at h
      next v a s hv hs =>
        cases h
        exact ⟨⟨_, hop, by simp [hs, Op.reads], fun _ => index_range hv⟩, id⟩
      next => cases h
    | ipush =>
      simp only [hop] at h
      split_ifs at h
      split at h
      next s hs =>
        cases h
        exact ⟨⟨_, hop, Nat.zero_le _, by simp⟩, fun _ => push_length hs⟩
      next => cases h
    | ipop =>
      simp only [hop] at h
      split at h
      next a s hs =>
        cases h
        exact ⟨⟨_, hop, by simp [hs, Op.reads], by simp⟩, by simp [hs]; omega⟩
      next => cases h
    | iadd | isub | ilt =>
      simp only [hop] at h
      split at h
      next a b s hs =>
        cases h
        exact ⟨⟨_, hop, by simp [hs, Op.reads], by simp⟩, by simp [hs]; omega⟩
      next => cases h
    | jmp =>
      simp only [hop] at h
      split at h
      next t ht => cases h; exact ⟨⟨_, hop, Nat.zero_le _, by simp⟩, id⟩
      next => cases h
    | jz | jnz =>
      simp only [hop] at h
      split at h
      next a s hs =>
        have hserved : Served obj m := ⟨_, hop, by simp [hs, Op.reads], by simp⟩
        refine ⟨hserved, ?_⟩
        split at h
        · split at h
          next t ht => cases h; simp [hs]; omega
          next => cases h
        · cases h; simp [hs]; omega
      next => cases h
    | halt => simp [hop] at h

/-- What holds in a state of a run on the code of `x`. -/
structure StackSafe (x : Node) (obj : Nat → BitVec 8) (m : Vm) : Prop where
  /-- The program point alone determines the depth. -/
  depth : depthAt x m.pc = some m.stack.length
  /-- `pc` stands on an opcode of the emitted code. -/
  boundary : m.pc < x.size ∧ Boundary obj m.pc
  /-- No instruction reads below the stack or outside `globals`. -/
  served : Served obj m
  room : m.stack.length ≤ stackSize
  start : m.pc ∈ stmtStarts 0 x → m.stack = []
  halted : AtHalt obj m → m.stack = []
  noFault : step obj m ≠ .fault

section
variable {obj : Nat → BitVec 8} {x : Node}

/-- The invariant of a run: the depth listed at `pc` is the depth of the
stack. -/
def Level (x : Node) (m : Vm) : Prop :=
  (depths 0 x)[m.pc]? = some (some m.stack.length) ∧ m.stack.length ≤ stackSize

section

variable (hx : IsStmt x) (hem : Emitted obj 0 (.prog x)) (hj : x.ShortJumps)
  (hfit : x.size + 1 ≤ objectSize) (hm : Level (.prog x) m)
include hx hem hj hfit hm

/-- One step of the machine from a state at the right level: it goes to
another one, or it has reached the final `HALT`. -/
theorem Level.step : (∃ m', step obj m = .next m' ∧ Level (.prog x) m')
      ∨ (m.pc = x.size ∧ m.stack = [] ∧ AtHalt obj m) := by
  obtain ⟨hat, hroom⟩ := hm
  rcases getElem?_append_cases hat with hi | ⟨i, hpc, hi⟩
  · left
    have hsize : 0 + x.size ≤ objectSize := by omega
    obtain ⟨m', o, hs, hpc, ho⟩ :=
      hx.steady 0 hem.1 hj hsize (room_of_fit hsize) m.pc m (by simp) hi
    obtain rfl : m'.pc = o := by omega
    exact ⟨m', hs, ho, (served_of_next hs).2 hroom⟩
  · right
    obtain ⟨rfl, hlen⟩ := opcode_inv hi
    rw [length_depths, Nat.add_zero] at hpc
    have hhalt : obj x.size = Op.halt.code := by simpa using hem.2
    exact ⟨hpc, length_eq_zero_iff.mp hlen, by omega, by rw [hpc, hhalt]⟩

theorem Level.stackSafe : StackSafe (.prog x) obj m := by
  have hlt : m.pc < (Node.prog x).size := by
    simpa using (List.getElem?_eq_some_iff.mp hm.1).1
  have hbound : Bounded obj 0 (depths 0 (.prog x)) :=
    (hx.bounded hem.1 .zero).append (fun h => .one h hem.2 rfl) (by simp)
  have hstart : m.pc ∈ stmtStarts 0 (.prog x) → m.stack = [] := by
    intro ha
    obtain ⟨o, ho, hzero⟩ := hx.zero_starts ha
    obtain rfl : m.pc = o := by omega
    have := hm.1.symm.trans hzero
    simpa using this
  refine ⟨by simp [depthAt, hm.1], ⟨hlt, ?_⟩, ?_, hm.2, hstart, ?_, ?_⟩
  · simpa using hbound.inside hm.1
  all_goals rcases hm.step hx hem hj hfit with ⟨m', hs, -⟩ | ⟨-, hempty, hhalt⟩
  · exact (served_of_next hs).1
  · exact ⟨.halt, by rw [hhalt.2, Op.ofCode_code], Nat.zero_le _, by simp⟩
  · intro h
    have hnone := h.next_none
    rw [next_of_step hs] at hnone
    cases hnone
  · exact fun _ => hempty
  · rw [hs]; simp
  · simp [TinyC.step, hhalt.1, hhalt.2]

end

end

/-- **Stack safety.** In every state that `run` reaches on the code of a
tree of the parser, whatever its constants: the depth of the stack is
determined by `pc`, no instruction reads below the stack or outside
`globals`, the stack is empty at every start of a statement and at `HALT`
and never exceeds its 1000 cells, and `pc` is on an opcode of the code. -/
theorem stack_safe {x : Node} (hx : IsProg x) {obj : Nat → BitVec 8} (hobj : compile x = some obj)
    (hjump : ∀ s ∈ jumpSites 0 x, InCharRange ((s.2 : Int) - (s.1 : Int)))
    {m : Vm} (hrun : Run (next obj) Vm.init m) : StackSafe x obj m := by
  obtain ⟨hem, hfit⟩ := compile_emitted hx hobj
  have hshort := (shortJumps_iff 0 x).mpr hjump
  cases hx with
  | @prog x hx =>
    simp only [Node.size] at hfit
    have hlevel : Level (.prog x) m := by
      refine hrun.invariant ?_ fun m1 m2 h1 hnext => ?_
      · obtain ⟨l, hl⟩ := hx.closed_cons
        exact ⟨by simp [depths, hl, Vm.init], by simp [Vm.init]⟩
      · rcases h1.step hx hem hshort (by omega) with ⟨m', hs, h2⟩ | ⟨-, -, hhalt⟩
        · rw [next_of_step hs] at hnext
          cases hnext
          exact h2
        · rw [hhalt.next_none] at hnext
          cases hnext
    exact hlevel.stackSafe hx hem hshort (by omega)

/-- `while (a<3) a=a+1;` in front of its first comparison. -/
theorem stack_safe_while : ∃ obj, compile (.prog (.while_ (.lt (.var 0) (.cst 3))
        (.expr (.set (.var 0) (.add (.var 0) (.cst 1)))))) = some obj
      ∧ StackSafe (.prog (.while_ (.lt (.var 0) (.cst 3))
          (.expr (.set (.var 0) (.add (.var 0) (.cst 1)))))) obj ⟨4, [3, 0], fun _ => 0⟩ := by
  refine ⟨_, rfl, stack_safe (.prog (.while_ (.lt (.var 0) (.cst 3))
    (.expr (.set 0 (.add (.var 0) (.cst 1)))))) rfl ?_ ?_⟩
  · simp [jumpSites, Node.size, InCharRange]
  · exact Run.head (b := ⟨2, [0], fun _ => 0⟩) rfl (Run.single rfl)

end TinyC

end CLangProject

import CLangProject.TinyGrammar

/-!
# Tiny-C: the code generator

`c` of `tinyc.c`, writing signed bytes into `object[1000]` through the
pointer `here`, with the holes of forward jumps patched afterwards by
`fix`. Running past the end of `object` has no defined behaviour in C;
the model returns `none` there.

The lemmas turn the imperative generator into a static picture of the
code: `Emitted obj b x` lists, constructor by constructor, the bytes that
stand in `obj` from `b` on, every jump operand being the distance from its
hole to its target, cut to a byte. The lemmas `generates` are the only places where the
generator itself is unfolded.
-/

namespace CLangProject

open List Option Function

namespace TinyC

/-! ## The trees of the parser -/

/-- The trees that `term`, `sum`, `test`, `expr` and `paren_expr` build. -/
inductive IsExpr : Node → Prop where
  | var (v) : IsExpr (.var v)
  | cst (k) : IsExpr (.cst k)
  | add {x y} : IsExpr x → IsExpr y → IsExpr (.add x y)
  | sub {x y} : IsExpr x → IsExpr y → IsExpr (.sub x y)
  | lt {x y} : IsExpr x → IsExpr y → IsExpr (.lt x y)
  | set (v) {x} : IsExpr x → IsExpr (.set (.var v) x)

/-- The trees that `statement` builds. -/
inductive IsStmt : Node → Prop where
  | if1 {c x} : IsExpr c → IsStmt x → IsStmt (.if1 c x)
  | if2 {c x y} : IsExpr c → IsStmt x → IsStmt y → IsStmt (.if2 c x y)
  | while_ {c x} : IsExpr c → IsStmt x → IsStmt (.while_ c x)
  | do_ {x c} : IsStmt x → IsExpr c → IsStmt (.do_ x c)
  | empty : IsStmt .empty
  | seq {x y} : IsStmt x → IsStmt y → IsStmt (.seq x y)
  | expr {x} : IsExpr x → IsStmt (.expr x)

/-- The trees that `program` builds. -/
inductive IsProg : Node → Prop where
  | prog {x} : IsStmt x → IsProg (.prog x)

/-- The shape of what a nonterminal derives. -/
def NT.Shape : NT → Node → Prop
  | .program => IsProg
  | .statement | .statements => IsStmt
  | _ => IsExpr

variable {ts : List Sym} {x : Node}

theorem Derives.shape {nt : NT} (h : Derives nt ts x) : nt.Shape x := by
  induction h with
  | program _ ih => exact .prog ih
  | if1 _ _ ihc ih => exact .if1 ihc ih
  | if2 _ _ _ ihc ihx ihy => exact .if2 ihc ihx ihy
  | while_ _ _ ihc ih => exact .while_ ihc ih
  | do_ _ _ ih ihc => exact .do_ ih ihc
  | block _ ih | paren _ ih | exprTest _ ih | testSum _ ih | sumTerm _ ih | termParen _ ih =>
    exact ih
  | exprStmt _ ih => exact .expr ih
  | emptyStmt | nil => exact .empty
  | snoc _ _ ihx ihy => exact .seq ihx ihy
  | exprSet _ ih => exact .set _ ih
  | testLess _ _ ihx ihy => exact .lt ihx ihy
  | sumPlus _ _ ihx ihy => exact .add ihx ihy
  | sumMinus _ _ ihx ihy => exact .sub ihx ihy
  | termId => exact .var _
  | termInt => exact .cst _

/-- Whatever `program` returns has the shape of a program. -/
theorem program_isProg (h : program ts = .ok x) : IsProg x := by
  obtain ⟨pre, rest, -, -, hd, -⟩ := program_sound h
  exact hd.shape

/-! ## Instructions -/

inductive Op where
  | ifetch | istore | ipush | ipop | iadd | isub | ilt | jz | jnz | jmp | halt
deriving Repr, DecidableEq

/-- The value of the `enum` constant, as a `code` byte. -/
def Op.code : Op → BitVec 8
  | .ifetch => 0 | .istore => 1 | .ipush => 2 | .ipop => 3 | .iadd => 4 | .isub => 5
  | .ilt => 6 | .jz => 7 | .jnz => 8 | .jmp => 9 | .halt => 10

/-! ## The generator -/

/-- `object` and `here`. -/
structure Gen where
  object : Nat → BitVec 8
  here : Nat

def objectSize : Nat := 1000

def Gen.g (b : BitVec 8) (G : Gen) : Option Gen :=
  if G.here < objectSize then
    some { object := update G.object G.here b, here := G.here + 1 }
  else none

def Gen.hole (G : Gen) : Option (Nat × Gen) :=
  if G.here < objectSize then some (G.here, { G with here := G.here + 1 }) else none

/-- The distance from `src` to `dst`, as stored by `*src = dst - src`. -/
def disp (src dst : Nat) : BitVec 8 := BitVec.ofInt 8 ((dst : Int) - (src : Int))

def Gen.fix (src dst : Nat) (G : Gen) : Option Gen :=
  if src < objectSize then
    some { G with object := update G.object src (disp src dst) }
  else none

def c : Node → Gen → Option Gen
  | .var v, G => do
    let G ← G.g Op.ifetch.code
    G.g (BitVec.ofNat 8 v)
  | .cst k, G => do
    let G ← G.g Op.ipush.code
    G.g (BitVec.ofNat 8 k)
  | .add o1 o2, G => do
    let G ← c o1 G
    let G ← c o2 G
    G.g Op.iadd.code
  | .sub o1 o2, G => do
    let G ← c o1 G
    let G ← c o2 G
    G.g Op.isub.code
  | .lt o1 o2, G => do
    let G ← c o1 G
    let G ← c o2 G
    G.g Op.ilt.code
  | .set (.var v) o2, G => do
    let G ← c o2 G
    let G ← G.g Op.istore.code
    G.g (BitVec.ofNat 8 v)
  -- `x->o1->val` of any other node: the parser builds none
  | .set _ _, _ => none
  | .if1 o1 o2, G => do
    let G ← c o1 G
    let G ← G.g Op.jz.code
    let (p1, G) ← G.hole
    let G ← c o2 G
    G.fix p1 G.here
  | .if2 o1 o2 o3, G => do
    let G ← c o1 G
    let G ← G.g Op.jz.code
    let (p1, G) ← G.hole
    let G ← c o2 G
    let G ← G.g Op.jmp.code
    let (p2, G) ← G.hole
    let G ← G.fix p1 G.here
    let G ← c o3 G
    G.fix p2 G.here
  | .while_ o1 o2, G => do
    let p1 := G.here
    let G ← c o1 G
    let G ← G.g Op.jz.code
    let (p2, G) ← G.hole
    let G ← c o2 G
    let G ← G.g Op.jmp.code
    let (p3, G) ← G.hole
    let G ← G.fix p3 p1
    G.fix p2 G.here
  | .do_ o1 o2, G => do
    let p1 := G.here
    let G ← c o1 G
    let G ← c o2 G
    let G ← G.g Op.jnz.code
    let (p2, G) ← G.hole
    G.fix p2 p1
  | .empty, G => some G
  | .seq o1 o2, G => do
    let G ← c o1 G
    c o2 G
  | .expr o1, G => do
    let G ← c o1 G
    G.g Op.ipop.code
  | .prog o1, G => do
    let G ← c o1 G
    G.g Op.halt.code

/-- `object` and `here` before the first instruction. -/
def Gen.init : Gen := { object := fun _ => 0, here := 0 }

/-- The code of a whole program; `none` when it does not fit in `object`. -/
def compile (x : Node) : Option (Nat → BitVec 8) := (c x Gen.init).map Gen.object

/-! ## The static picture -/

/-- The number of bytes `c` emits. -/
def Node.size : Node → Nat
  | .var _ | .cst _ => 2
  | .add o1 o2 | .sub o1 o2 | .lt o1 o2 => o1.size + o2.size + 1
  | .set _ o2 => o2.size + 2
  | .if1 o1 o2 => o1.size + o2.size + 2
  | .if2 o1 o2 o3 => o1.size + o2.size + o3.size + 4
  | .while_ o1 o2 => o1.size + o2.size + 4
  | .do_ o1 o2 => o1.size + o2.size + 2
  | .empty => 0
  | .seq o1 o2 => o1.size + o2.size
  | .expr o1 => o1.size + 1
  | .prog o1 => o1.size + 1

/-- The code of `x` stands in `obj` from `b` on. -/
def Emitted (obj : Nat → BitVec 8) : Nat → Node → Prop
  | b, .var v => obj b = Op.ifetch.code ∧ obj (b + 1) = BitVec.ofNat 8 v
  | b, .cst k => obj b = Op.ipush.code ∧ obj (b + 1) = BitVec.ofNat 8 k
  | b, .add x y => Emitted obj b x ∧ Emitted obj (b + x.size) y
      ∧ obj (b + x.size + y.size) = Op.iadd.code
  | b, .sub x y => Emitted obj b x ∧ Emitted obj (b + x.size) y
      ∧ obj (b + x.size + y.size) = Op.isub.code
  | b, .lt x y => Emitted obj b x ∧ Emitted obj (b + x.size) y
      ∧ obj (b + x.size + y.size) = Op.ilt.code
  | b, .set (.var v) x => Emitted obj b x ∧ obj (b + x.size) = Op.istore.code
      ∧ obj (b + x.size + 1) = BitVec.ofNat 8 v
  | _, .set _ _ => False
  | b, .if1 x y => Emitted obj b x ∧ obj (b + x.size) = Op.jz.code
      ∧ obj (b + x.size + 1) = disp (b + x.size + 1) (b + x.size + 2 + y.size)
      ∧ Emitted obj (b + x.size + 2) y
  | b, .if2 x y z => Emitted obj b x ∧ obj (b + x.size) = Op.jz.code
      ∧ obj (b + x.size + 1) = disp (b + x.size + 1) (b + x.size + y.size + 4)
      ∧ Emitted obj (b + x.size + 2) y
      ∧ obj (b + x.size + y.size + 2) = Op.jmp.code
      ∧ obj (b + x.size + y.size + 3)
          = disp (b + x.size + y.size + 3) (b + x.size + y.size + 4 + z.size)
      ∧ Emitted obj (b + x.size + y.size + 4) z
  | b, .while_ x y => Emitted obj b x ∧ obj (b + x.size) = Op.jz.code
      ∧ obj (b + x.size + 1) = disp (b + x.size + 1) (b + x.size + y.size + 4)
      ∧ Emitted obj (b + x.size + 2) y
      ∧ obj (b + x.size + y.size + 2) = Op.jmp.code
      ∧ obj (b + x.size + y.size + 3) = disp (b + x.size + y.size + 3) b
  | b, .do_ x y => Emitted obj b x ∧ Emitted obj (b + x.size) y
      ∧ obj (b + x.size + y.size) = Op.jnz.code
      ∧ obj (b + x.size + y.size + 1) = disp (b + x.size + y.size + 1) b
  | _, .empty => True
  | b, .seq x y => Emitted obj b x ∧ Emitted obj (b + x.size) y
  | b, .expr x => Emitted obj b x ∧ obj (b + x.size) = Op.ipop.code
  | b, .prog x => Emitted obj b x ∧ obj (b + x.size) = Op.halt.code

/-! ## What the generator does

A state in the middle of the work is described by `Built`, what one more step makes of it
by the lemmas `Built.g` to `Built.fix`. -/

/-- `n` bytes have been emitted from `b` on, with the bytes before as in `old`. Whatever
comes into the open `holes`, the new bytes make `P` true. -/
structure Built (old : Nat → BitVec 8) (b n : Nat) (holes : List Nat) (P : (Nat → BitVec 8) → Prop)
    (G : Gen) : Prop where
  here : G.here = b + n
  fits : n = 0 ∨ b + n ≤ objectSize
  kept : ∀ i < b, G.object i = old i
  inside : ∀ p ∈ holes, b ≤ p ∧ p < b + n
  code : ∀ obj, (∀ i, b ≤ i → i < b + n → i ∉ holes → obj i = G.object i) → P obj

/-- The generator comes to such a state, if there is room for the bytes. -/
structure Emits (old : Nat → BitVec 8) (b n : Nat) (holes : List Nat) (P : (Nat → BitVec 8) → Prop)
    (r : Option Gen) : Prop where
  isSome : n = 0 ∨ b + n ≤ objectSize → ∃ G, r = some G
  built : ∀ G, r = some G → Built old b n holes P G

section
variable {old : Nat → BitVec 8} {a b n k N p q : Nat} {H H' : List Nat}
    {P Q : (Nat → BitVec 8) → Prop}
  {G : Gen} {r : Option Gen}

theorem Emits.bind {f : Gen → Option Gen} (hr : Emits old b n H P r) (hn : n ≤ N)
    (hf : ∀ G, Built old b n H P G → Emits old b N H' Q (f G)) : Emits old b N H' Q (r >>= f) := by
  refine ⟨fun hN => ?_, fun G' hG' => ?_⟩
  · obtain ⟨G, rfl⟩ := hr.isSome (by omega)
    exact (hf G (hr.built G rfl)).isSome hN
  · obtain ⟨G, rfl, hG⟩ := Option.bind_eq_some_iff.mp hG'
    exact (hf G (hr.built G rfl)).built G' hG

theorem Emits.imp (h : Emits old b n H P r) (hn : n = N) (hPQ : ∀ obj, P obj → Q obj) :
    Emits old b N H Q r := by
  subst hn
  refine ⟨h.isSome, fun G hG => ?_⟩
  have hb := h.built G hG
  exact { hb with code := fun obj hobj => hPQ obj (hb.code obj hobj) }

theorem Built.start (h : G.here = b) : Built G.object b 0 [] (fun _ => True) G :=
  ⟨h, Or.inl rfl, fun _ _ => rfl, by simp, fun _ _ => trivial⟩

section

variable (h : Built old b n H P G)
include h

theorem Built.g (ha : b + n = a) (v : BitVec 8) :
    Emits old b (n + 1) H (fun obj => P obj ∧ obj a = v) (G.g v) := by
  subst ha
  have hhere := h.here
  refine ⟨fun hfit => ⟨_, if_pos (by omega)⟩, fun G' hG' => ?_⟩
  unfold Gen.g at hG'
  split_ifs at hG' with hlt
  obtain rfl := some.inj hG'
  have hold : ∀ i < b + n, update G.object G.here v i = G.object i := fun i hi =>
    update_of_ne (by omega) ..
  refine ⟨congrArg (· + 1) hhere, Or.inr (by omega), fun i hi => ?_, fun p hp => ?_,
    fun obj hobj => ⟨h.code obj fun i hbi hi hH => ?_, ?_⟩⟩
  · exact (hold i (by omega)).trans (h.kept i hi)
  · have := h.inside p hp
    omega
  · exact (hobj i hbi (by omega) hH).trans (hold i hi)
  · rw [hobj (b + n) (by omega) (by omega) fun hmem => by have := h.inside _ hmem; omega, ← hhere]
    exact update_self ..

/-- The code of a part is put behind what has been built. -/
theorem Built.part (ha : b + n = a) (hx : Emits G.object a k [] Q r) :
    Emits old b (n + k) H (fun obj => P obj ∧ Q obj) r := by
  subst ha
  refine ⟨fun hfit => hx.isSome (by omega), fun G' hG' => ?_⟩
  have hb := hx.built G' hG'
  have hf := h.fits
  have hf' := hb.fits
  refine ⟨by rw [hb.here]; omega, by omega, fun i hi => ?_, fun p hp => ?_,
    fun obj hobj => ⟨h.code obj fun i hbi hi hH => ?_, hb.code obj fun i hbi hi _ => ?_⟩⟩
  · rw [hb.kept i (by omega), h.kept i hi]
  · have := h.inside p hp
    omega
  · rw [hobj i hbi (by omega) hH, hb.kept i hi]
  · exact hobj i (by omega) (by omega) fun hmem => by have := h.inside i hmem; omega

theorem Built.hole {f : Nat × Gen → Option Gen} (hp : b + n = p) (hn : n < N)
    (hf : ∀ G, Built old b (n + 1) (p :: H) P G → Emits old b N H' Q (f (p, G))) :
    Emits old b N H' Q (G.hole >>= f) := by
  subst hp
  have hhere := h.here
  unfold Gen.hole
  split_ifs with hlt
  · have hb : Built old b (n + 1) ((b + n) :: H) P { G with here := b + n + 1 } := by
      refine ⟨rfl, Or.inr (by omega), h.kept, fun p hp => ?_,
        fun obj hobj => h.code obj fun i hbi hi hH => ?_⟩
      · rcases mem_cons.mp hp with rfl | hp
        · omega
        · have := h.inside p hp
          omega
      · refine hobj i hbi (by omega) fun hmem => ?_
        rcases mem_cons.mp hmem with rfl | hmem
        · omega
        · exact hH hmem
    rw [hhere]
    exact hf _ hb
  · exact ⟨fun hfit => by omega, nofun⟩

end

/-- A hole is filled. -/
theorem Built.fix {d dst : Nat} (h : Built old b n (p :: H) P G) (hp : p ∉ H) (hd : dst = d) :
    Emits old b n H (fun obj => P obj ∧ obj p = disp p d) (G.fix p dst) := by
  subst hd
  obtain ⟨hbp, hpn⟩ := h.inside p mem_cons_self
  have hf := h.fits
  refine ⟨fun _ => ⟨_, if_pos (by omega)⟩, fun G' hG' => ?_⟩
  unfold Gen.fix at hG'
  split_ifs at hG'
  obtain rfl := some.inj hG'
  refine ⟨h.here, hf, fun i hi => ?_, fun q hq => h.inside q (mem_cons_of_mem _ hq),
    fun obj hobj => ⟨h.code obj fun i hbi hi hH => ?_, ?_⟩⟩
  · exact (update_of_ne (by omega) ..).trans (h.kept i hi)
  · rw [mem_cons, not_or] at hH
    exact (hobj i hbi hi hH.2).trans (update_of_ne hH.1 ..)
  · exact (hobj p hbp hpn hp).trans (update_self ..)

/-- The holes may be filled in any order. -/
theorem Built.swap (h : Built old b n (p :: q :: H) P G) : Built old b n (q :: p :: H) P G :=
  { h with
    inside := fun i hi => h.inside i ((Perm.swap p q H).mem_iff.mp hi)
    code := fun obj hobj => h.code obj fun i hbi hi hH =>
      hobj i hbi hi fun hmem => hH ((Perm.swap p q H).mem_iff.mp hmem) }

end

/-- The code of `x` is emitted from `here` on. -/
def Generates (x : Node) : Prop :=
  ∀ {b : Nat} {G : Gen}, G.here = b → Emits G.object b x.size [] (Emitted · b x) (c x G)

theorem IsExpr.generates (h : IsExpr x) : Generates x := by
  induction h with
  | var v | cst v =>
    intro b G hG
    refine ((Built.start hG).g rfl _).bind (by simp [Node.size]) fun G1 h1 => ?_
    exact (h1.g rfl _).imp rfl fun obj ⟨⟨_, hop⟩, harg⟩ => ⟨hop, harg⟩
  | add _ _ ihx ihy | sub _ _ ihx ihy | lt _ _ ihx ihy =>
    intro b G hG
    simp only [Node.size]
    refine (ihx hG).bind (by omega) fun G1 h1 => ?_
    refine (h1.part rfl (ihy h1.here)).bind (by omega) fun G2 h2 => ?_
    exact (h2.g (Nat.add_assoc ..).symm _).imp rfl fun obj ⟨⟨hx, hy⟩, hop⟩ => ⟨hx, hy, hop⟩
  | set v _ ih =>
    intro b G hG
    refine (ih hG).bind (by simp [Node.size]) fun G1 h1 => ?_
    refine (h1.g rfl _).bind (by simp [Node.size]) fun G2 h2 => ?_
    exact (h2.g rfl _).imp rfl fun obj ⟨⟨hx, hy⟩, hop⟩ => ⟨hx, hy, hop⟩

theorem IsStmt.generates (h : IsStmt x) : Generates x := by
  induction h with
  | @if1 c x hc _ ih =>
    intro b G hG
    simp only [Node.size]
    refine (hc.generates hG).bind (by omega) fun G1 h1 => ?_
    refine (h1.g rfl _).bind (by omega) fun G2 h2 => ?_
    refine h2.hole rfl (by omega) fun G3 h3 => ?_
    refine (h3.part rfl (ih h3.here)).bind (by omega) fun G4 h4 => ?_
    exact (h4.fix (d := b + c.size + 2 + x.size) (by simp) (by rw [h4.here]; omega)).imp (by omega)
      fun obj ⟨⟨⟨hcode, hjz⟩, hx⟩, hout⟩ => ⟨hcode, hjz, hout, hx⟩
  | @if2 c x y hc _ _ ihx ihy =>
    intro b G hG
    simp only [Node.size]
    refine (hc.generates hG).bind (by omega) fun G1 h1 => ?_
    refine (h1.g rfl _).bind (by omega) fun G2 h2 => ?_
    refine h2.hole rfl (by omega) fun G3 h3 => ?_
    refine (h3.part rfl (ihx h3.here)).bind (by omega) fun G4 h4 => ?_
    refine (h4.g (a := b + c.size + x.size + 2) (by omega) _).bind (by omega) fun G5 h5 => ?_
    refine h5.hole (p := b + c.size + x.size + 3) (by omega) (by omega) fun G6 h6 => ?_
    -- the first hole is filled while the second is still open
    refine (h6.swap.fix (d := b + c.size + x.size + 4) (by simp; omega)
      (by rw [h6.here]; omega)).bind (by omega) fun G7 h7 => ?_
    refine (h7.part (a := b + c.size + x.size + 4) (by omega)
      (ihy (by rw [h7.here]; omega))).bind (by omega) fun G8 h8 => ?_
    exact (h8.fix (d := b + c.size + x.size + 4 + y.size) (by simp)
      (by rw [h8.here]; omega)).imp (by omega)
      fun obj ⟨⟨⟨⟨⟨⟨hcode, hjz⟩, hx⟩, hjmp⟩, helse⟩, hy⟩, hout⟩ =>
        ⟨hcode, hjz, helse, hx, hjmp, hout, hy⟩
  | @while_ c x hc _ ih =>
    intro b G hG
    simp only [Node.size]
    refine (hc.generates hG).bind (by omega) fun G1 h1 => ?_
    refine (h1.g rfl _).bind (by omega) fun G2 h2 => ?_
    refine h2.hole rfl (by omega) fun G3 h3 => ?_
    refine (h3.part rfl (ih h3.here)).bind (by omega) fun G4 h4 => ?_
    refine (h4.g (a := b + c.size + x.size + 2) (by omega) _).bind (by omega) fun G5 h5 => ?_
    refine h5.hole (p := b + c.size + x.size + 3) (by omega) (by omega) fun G6 h6 => ?_
    refine (h6.fix (by simp; omega) hG).bind (by omega) fun G7 h7 => ?_
    exact (h7.fix (d := b + c.size + x.size + 4) (by simp) (by rw [h7.here]; omega)).imp (by omega)
      fun obj ⟨⟨⟨⟨⟨hcode, hjz⟩, hx⟩, hjmp⟩, hback⟩, hout⟩ => ⟨hcode, hjz, hout, hx, hjmp, hback⟩
  | @do_ x c _ hc ih =>
    intro b G hG
    simp only [Node.size]
    refine (ih hG).bind (by omega) fun G1 h1 => ?_
    refine (h1.part rfl (hc.generates h1.here)).bind (by omega) fun G2 h2 => ?_
    refine (h2.g (a := b + x.size + c.size) (by omega) _).bind (by omega) fun G3 h3 => ?_
    refine h3.hole (p := b + x.size + c.size + 1) (by omega) (by omega) fun G4 h4 => ?_
    exact (h4.fix (by simp) hG).imp (by omega)
      fun obj ⟨⟨⟨hx, hcode⟩, hjnz⟩, hback⟩ => ⟨hx, hcode, hjnz, hback⟩
  | empty =>
    intro b G hG
    exact ⟨fun _ => ⟨G, rfl⟩, fun G' hG' => some.inj hG' ▸ Built.start hG⟩
  | seq _ _ ihx ihy =>
    intro b G hG
    simp only [Node.size]
    refine (ihx hG).bind (by omega) fun G1 h1 => ?_
    exact h1.part rfl (ihy h1.here)
  | expr hx =>
    intro b G hG
    refine (hx.generates hG).bind (by simp [Node.size]) fun G1 h1 => ?_
    exact h1.g rfl _

theorem IsProg.generates (h : IsProg x) : Generates x := by
  cases h with
  | prog hx =>
    intro b G hG
    refine (hx.generates hG).bind (by simp [Node.size]) fun G1 h1 => ?_
    exact h1.g rfl _

theorem compile_emits (h : IsProg x) :
    Emits Gen.init.object 0 x.size [] (Emitted · 0 x) (c x Gen.init) := h.generates rfl

/-- The bytes of a compiled program. -/
theorem compile_emitted {obj : Nat → BitVec 8} (hx : IsProg x) (h : compile x = some obj) :
    Emitted obj 0 x ∧ x.size ≤ objectSize := by
  obtain ⟨G, hG, rfl⟩ := map_eq_some_iff.mp h
  have hb := (compile_emits hx).built G hG
  refine ⟨hb.code _ fun _ _ _ _ => rfl, ?_⟩
  have := hb.fits
  omega

/-- The generator stays inside `object` exactly when the program is at most
`objectSize` bytes long. -/
theorem compile_isSome_iff (h : IsProg x) : (compile x).isSome ↔ x.size ≤ objectSize := by
  constructor
  · intro hs
    obtain ⟨obj, hobj⟩ := isSome_iff_exists.mp hs
    exact (compile_emitted h hobj).2
  · intro hs
    obtain ⟨G, hG⟩ := (compile_emits h).isSome (by omega)
    simp [compile, hG]

end TinyC

end CLangProject

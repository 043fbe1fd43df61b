import CLangProject.TinyGen

/-!
# Tiny-C: operands and the bytes that hold them

`g` and `fix` store an `int` into a `char`, and `run` reads the operand
back as a signed `char`. The two agree exactly on `-128..127`.

`constSites` and `jumpSites` list what the generator means: the address
and value of every `IPUSH` operand, the hole and target of every jump.
`numerals` reads the decimal integers off the source text itself, so that
the constants are compared with what was written and not with what the
tree holds. The comments `missing overflow check` in the source name the
defect; `operands_exact_iff` says exactly which programs it leaves alone.
-/

namespace CLangProject

open List

namespace TinyC

/-! ## Constants of the text -/

/-- The decimal integers written in a text, from left to right; `cur` is the
value of the one being read. -/
def numeralsFrom : Option Nat → List Char → List Nat
  | cur, [] => cur.toList
  | cur, ch :: rest =>
    if isDigit ch then
      numeralsFrom (some (cur.getD 0 * 10 + (ch.toNat - '0'.toNat))) rest
    else cur.toList ++ numeralsFrom none rest

def numerals (text : List Char) : List Nat := numeralsFrom none text

example : numerals "{ i=125; j=100; }".toList = [125, 100] := by decide

def Sym.intVal? : Sym → Option Nat
  | .int k => some k
  | _ => none

/-- The integer constants of a tree, from left to right. -/
def Node.constants : Node → List Nat
  | .cst k => [k]
  | .add x y | .sub x y | .lt x y | .if1 x y | .while_ x y | .do_ x y | .seq x y
  | .set x y => x.constants ++ y.constants
  | .if2 x y z => x.constants ++ y.constants ++ z.constants
  | .expr x | .prog x => x.constants
  | .var _ | .empty => []

variable {rest text : List Char} {ch : Char} {s : Sym} {ts : List Sym} {x : Node}
  {obj : Nat → BitVec 8} {b : Nat}

theorem numeralsFrom_digits {chs : List Char} {v w : Nat} (h : digits v chs = .ok (w, rest)) :
    numeralsFrom (some v) chs = w :: numeralsFrom none rest := by
  induction chs generalizing v with
  | nil =>
    obtain ⟨rfl, rfl⟩ := ok_inj h
    rfl
  | cons ch chs ih =>
    rw [digits] at h
    by_cases hd : isDigit ch
    · simp only [hd, if_true] at h
      split_ifs at h
      simpa [numeralsFrom, hd] using ih h
    · simp only [hd, Bool.false_eq_true, if_false] at h
      obtain ⟨rfl, rfl⟩ := ok_inj h
      simp [numeralsFrom, hd]

theorem not_isDigit_of_letter (h : isLower ch ∨ ch = '_') : isDigit ch = false := by
  simp only [isLower, isDigit, decide_eq_true_eq, decide_eq_false_iff_not, Char.le_def,
    UInt32.le_iff_toNat_le] at h ⊢
  rcases h with h | rfl
  · intro hd
    have h1 : ('9' : Char).val.toNat < ('a' : Char).val.toNat := by decide
    omega
  · decide

theorem numeralsFrom_letters (chs : List Char) :
    numeralsFrom none chs = numeralsFrom none (letters chs).2 := by
  induction chs with
  | nil => rfl
  | cons ch chs ih =>
    rw [letters]
    split_ifs with h
    · simp [numeralsFrom, not_isDigit_of_letter h, ih]
    · rfl

theorem charSym_spec (h : charSym? ch = some s) :
    isDigit ch = false ∧ s.intVal? = none ∧ s ≠ .eoi := by
  unfold charSym? at h
  split at h <;> cases h <;> decide

theorem wordSym_spec {name : List Char} (h : wordSym name = .ok s) :
    s.intVal? = none ∧ s ≠ .eoi := by
  unfold wordSym at h
  split_ifs at h
  case neg =>
      split at h
      · obtain rfl := Except.ok.inj h; exact ⟨rfl, by simp⟩
      · cases h
  all_goals obtain rfl := Except.ok.inj h; exact ⟨rfl, by simp⟩

/-- One symbol of the scanner takes the matching numeral off the text, and
`EOI` comes only at its end. -/
theorem nextSym_numerals (h : nextSym text = .ok (s, rest)) :
    numerals text = s.intVal?.toList ++ numerals rest ∧ (s = .eoi → rest = []) := by
  unfold numerals
  induction text with
  | nil =>
    obtain ⟨rfl, rfl⟩ := ok_inj h
    exact ⟨rfl, fun _ => rfl⟩
  | cons ch text ih =>
    rw [nextSym] at h
    by_cases hblank : ch = ' ' ∨ ch = '\n'
    · rw [if_pos hblank] at h
      have hch : isDigit ch = false := by rcases hblank with rfl | rfl <;> decide
      simpa [numeralsFrom, hch] using ih h
    · rw [if_neg hblank] at h
      split at h
      · rename_i s' hs
        obtain ⟨rfl, rfl⟩ := ok_inj h
        obtain ⟨hch, hval, heoi⟩ := charSym_spec hs
        exact ⟨by simp [numeralsFrom, hch, hval], fun h => absurd h heoi⟩
      · split_ifs at h with hdig hlow
        · rw [bind_ok] at h
          obtain ⟨⟨v, rest'⟩, hd, h⟩ := h
          obtain ⟨rfl, rfl⟩ := ok_inj h
          have := numeralsFrom_digits hd
          exact ⟨by simpa [numeralsFrom, hdig, Sym.intVal?] using this, nofun⟩
        · simp only at h
          split_ifs at h with hlen
          rw [bind_ok] at h
          obtain ⟨s', hw, h⟩ := h
          obtain ⟨rfl, rfl⟩ := ok_inj h
          obtain ⟨hval, heoi⟩ := wordSym_spec hw
          rw [hval]
          exact ⟨numeralsFrom_letters _, fun h => absurd h heoi⟩

theorem symbols_numerals {fuel : Nat} (h : symbols fuel text = .ok ts) :
    numerals text = ts.filterMap Sym.intVal? ∧ .eoi ∉ ts := by
  induction fuel generalizing text ts with
  | zero => cases h
  | succ fuel ih =>
    rw [symbols, bind_ok] at h
    obtain ⟨⟨s, rest⟩, hs, h⟩ := h
    obtain ⟨hnum, hend⟩ := nextSym_numerals hs
    simp only at h
    split_ifs at h with heoi
    · obtain rfl := Except.ok.inj h
      rw [hnum, heoi, hend heoi]
      exact ⟨rfl, by simp⟩
    · rw [bind_ok] at h
      obtain ⟨ss, hss, h⟩ := h
      obtain rfl := Except.ok.inj h
      obtain ⟨ih1, ih2⟩ := ih hss
      refine ⟨?_, by simpa [Ne.symm heoi] using ih2⟩
      rw [hnum, ih1, filterMap_cons]
      cases s.intVal? <;> rfl

theorem Derives.constants {nt : NT} (h : Derives nt ts x) :
    x.constants = ts.filterMap Sym.intVal? := by
  induction h <;> simp_all [Node.constants, Sym.intVal?, filterMap_cons]

/-- The constants of an accepted program are the numerals of its text. -/
theorem parseText_constants (h : parseText text = .ok x) : x.constants = numerals text := by
  rw [parseText, bind_ok] at h
  obtain ⟨ts, hscan, hprog⟩ := h
  obtain ⟨hnum, heoi⟩ := symbols_numerals hscan
  obtain ⟨pre, rest, rfl, hend, hd, -⟩ := program_sound hprog
  have hrest : rest = [] := by
    cases rest with
    | nil => rfl
    | cons s us =>
      obtain rfl : s = .eoi := hend
      exact absurd (by simp) heoi
  rw [hd.constants, hnum, hrest, append_nil]

/-! ## What the generator means -/

/-- Address and value of every `IPUSH` operand in the code of `x` at `b`. -/
def constSites : Nat → Node → List (Nat × Nat)
  | _, .var _ => []
  | b, .cst k => [(b + 1, k)]
  | b, .add x y | b, .sub x y | b, .lt x y => constSites b x ++ constSites (b + x.size) y
  | b, .set _ x => constSites b x
  | b, .if1 x y => constSites b x ++ constSites (b + x.size + 2) y
  | b, .if2 x y z => constSites b x ++ constSites (b + x.size + 2) y
      ++ constSites (b + x.size + y.size + 4) z
  | b, .while_ x y => constSites b x ++ constSites (b + x.size + 2) y
  | b, .do_ x y => constSites b x ++ constSites (b + x.size) y
  | _, .empty => []
  | b, .seq x y => constSites b x ++ constSites (b + x.size) y
  | b, .expr x | b, .prog x => constSites b x

/-- Hole and intended target of every jump in the code of `x` at `b`: an
`if` without `else` jumps behind its statement, one with `else` to the
`else` part and from there behind it, a `while` behind the loop and back to
its condition, a `do` back to its body. -/
def jumpSites : Nat → Node → List (Nat × Nat)
  | b, .if1 x y => (b + x.size + 1, b + (Node.if1 x y).size) :: jumpSites (b + x.size + 2) y
  | b, .if2 x y z => (b + x.size + 1, b + x.size + y.size + 4)
      :: (b + x.size + y.size + 3, b + (Node.if2 x y z).size)
      :: (jumpSites (b + x.size + 2) y ++ jumpSites (b + x.size + y.size + 4) z)
  | b, .while_ x y => (b + x.size + 1, b + (Node.while_ x y).size)
      :: (b + x.size + y.size + 3, b) :: jumpSites (b + x.size + 2) y
  | b, .do_ x y => (b + x.size + y.size + 1, b) :: jumpSites b x
  | b, .seq x y => jumpSites b x ++ jumpSites (b + x.size) y
  | b, .prog x => jumpSites b x
  | _, _ => []

theorem constSites_values (b : Nat) (h : Emitted obj b x) :
    (constSites b x).map Prod.snd = x.constants := by
  induction x generalizing b with
  | set o1 x _ ih =>
    cases o1 <;> simp only [Emitted] at h
    simpa [constSites, Node.constants] using ih b h.1
  | _ => simp_all [Emitted, constSites, Node.constants]

theorem Emitted.const_byte (h : Emitted obj b x) :
    ∀ s ∈ constSites b x, obj s.1 = BitVec.ofNat 8 s.2 := by
  induction x generalizing b with
  | set o1 x _ ih =>
    cases o1 <;> simp only [Emitted] at h
    exact ih h.1
  | cst k => simpa [constSites, Emitted] using h.2
  | var | empty => simp [constSites]
  | expr x ih | prog x ih => exact ih h.1
  | add x y ihx ihy | sub x y ihx ihy | lt x y ihx ihy | do_ x y ihx ihy =>
    exact forall_mem_append.mpr ⟨ihx h.1, ihy h.2.1⟩
  | seq x y ihx ihy => exact forall_mem_append.mpr ⟨ihx h.1, ihy h.2⟩
  | if1 x y ihx ihy => exact forall_mem_append.mpr ⟨ihx h.1, ihy h.2.2.2⟩
  | while_ x y ihx ihy => exact forall_mem_append.mpr ⟨ihx h.1, ihy h.2.2.2.1⟩
  | if2 x y z ihx ihy ihz =>
    obtain ⟨hx, -, -, hy, -, -, hz⟩ := h
    exact forall_mem_append.mpr ⟨forall_mem_append.mpr ⟨ihx hx, ihy hy⟩, ihz hz⟩

theorem Emitted.jump_byte (h : Emitted obj b x) : ∀ s ∈ jumpSites b x, obj s.1 = disp s.1 s.2 := by
  induction x generalizing b with
  | if1 x y _ ihy =>
    obtain ⟨-, -, h1, hy⟩ := h
    refine forall_mem_cons.mpr ⟨?_, ihy hy⟩
    simpa [Node.size, Nat.add_assoc, Nat.add_comm, Nat.add_left_comm] using h1
  | if2 x y z _ ihy ihz =>
    obtain ⟨-, -, h1, hy, -, h2, hz⟩ := h
    refine forall_mem_cons.mpr ⟨h1, forall_mem_cons.mpr ⟨?_,
      forall_mem_append.mpr ⟨ihy hy, ihz hz⟩⟩⟩
    simpa [Node.size, Nat.add_assoc, Nat.add_comm, Nat.add_left_comm] using h2
  | while_ x y _ ihy =>
    obtain ⟨-, -, h1, hy, -, h2⟩ := h
    refine forall_mem_cons.mpr ⟨?_, forall_mem_cons.mpr ⟨h2, ihy hy⟩⟩
    simpa [Node.size, Nat.add_assoc, Nat.add_comm, Nat.add_left_comm] using h1
  | do_ x y ihx _ => exact forall_mem_cons.mpr ⟨h.2.2.2, ihx h.1⟩
  | seq x y ihx ihy => exact forall_mem_append.mpr ⟨ihx h.1, ihy h.2⟩
  | prog x ih => exact ih h.1
  | _ => simp [jumpSites]

/-! ## The condition on the program -/

/-- Every jump reaches its target with a signed byte, in terms of the sizes
of the statements it spans. -/
def Node.ShortJumps : Node → Prop
  | .if1 _ y => y.size + 1 ≤ 127 ∧ y.ShortJumps
  | .if2 _ y z => y.size + 3 ≤ 127 ∧ z.size + 1 ≤ 127 ∧ y.ShortJumps ∧ z.ShortJumps
  | .while_ x y => y.size + 3 ≤ 127 ∧ x.size + y.size + 3 ≤ 128 ∧ y.ShortJumps
  | .do_ x y => x.size + y.size + 1 ≤ 128 ∧ x.ShortJumps
  | .seq x y => x.ShortJumps ∧ y.ShortJumps
  | .prog x => x.ShortJumps
  | _ => True

/-- The distance fits a signed `char`. -/
def InCharRange (d : Int) : Prop := -128 ≤ d ∧ d ≤ 127

theorem shortJumps_iff (b : Nat) (x : Node) :
    x.ShortJumps ↔ ∀ s ∈ jumpSites b x, InCharRange ((s.2 : Int) - (s.1 : Int)) := by
  induction x generalizing b with
  | if1 x y _ ihy =>
    simp only [Node.ShortJumps, jumpSites, forall_mem_cons, Node.size, ihy (b + x.size + 2)]
    refine and_congr ?_ Iff.rfl
    unfold InCharRange; omega
  | if2 x y z _ ihy ihz =>
    simp only [Node.ShortJumps, jumpSites, forall_mem_cons, forall_mem_append,
      Node.size, ihy (b + x.size + 2), ihz (b + x.size + y.size + 4)]
    refine and_congr ?_ (and_congr ?_ Iff.rfl) <;> unfold InCharRange <;> omega
  | while_ x y _ ihy =>
    simp only [Node.ShortJumps, jumpSites, forall_mem_cons, Node.size, ihy (b + x.size + 2)]
    refine and_congr ?_ (and_congr ?_ Iff.rfl) <;> unfold InCharRange <;> omega
  | do_ x y ihx _ =>
    simp only [Node.ShortJumps, jumpSites, forall_mem_cons, ihx b]
    refine and_congr ?_ Iff.rfl
    unfold InCharRange; omega
  | seq x y ihx ihy =>
    simp only [Node.ShortJumps, jumpSites, forall_mem_append, ihx b, ihy (b + x.size)]
  | prog x ih => exact ih b
  | _ => simp [Node.ShortJumps, jumpSites]

theorem toInt_ofNat_iff (k : Nat) : (BitVec.ofNat 8 k).toInt = k ↔ k ≤ 127 := by
  rw [BitVec.toInt_eq_toNat_bmod, BitVec.toNat_ofNat, Int.bmod_def]
  constructor
  · intro h; split_ifs at h <;> omega
  · intro h; split_ifs <;> omega

theorem toInt_disp_iff (src dst : Nat) : (disp src dst).toInt = (dst : Int) - (src : Int)
      ↔ InCharRange ((dst : Int) - (src : Int)) := by
  rw [disp, BitVec.toInt_ofInt, Int.bmod_def, InCharRange]
  constructor
  · intro h; split_ifs at h <;> omega
  · intro h; split_ifs <;> omega

/-! ## Operands read back -/

/-- The operands in `obj`, read as signed bytes, are what the generator of
`text` meant: the `IPUSH` operands are the numerals of the text in order,
and each jump operand is the distance from its hole to its target. -/
def OperandsExact (text : List Char) (x : Node) (obj : Nat → BitVec 8) : Prop :=
  (constSites 0 x).map (fun s => (obj s.1).toInt) = (numerals text).map Int.ofNat
    ∧ ∀ s ∈ jumpSites 0 x, (obj s.1).toInt = (s.2 : Int) - (s.1 : Int)

/-- **Operands are exact where they fit.** For every accepted text whose
code fits in `object`, the operands are read back as they were meant
exactly when every numeral is at most 127 and every jump spans at most
what a signed byte can hold. -/
theorem operands_exact_iff {text : List Char} {x : Node} {obj : Nat → BitVec 8}
    (hparse : parseText text = .ok x) (hobj : compile x = some obj) :
    OperandsExact text x obj ↔ (∀ k ∈ numerals text, k ≤ 127) ∧ x.ShortJumps := by
  obtain ⟨ts, -, hprog⟩ := bind_ok.mp hparse
  obtain ⟨hem, -⟩ := compile_emitted (program_isProg hprog) hobj
  have hvals : (constSites 0 x).map Prod.snd = numerals text :=
    (constSites_values 0 hem).trans (parseText_constants hparse)
  have hconst : (constSites 0 x).map (fun s => (obj s.1).toInt)
      = (constSites 0 x).map (fun s => (BitVec.ofNat 8 s.2).toInt) :=
    map_congr_left fun s hs => by rw [hem.const_byte s hs]
  have hjump : (∀ s ∈ jumpSites 0 x, (obj s.1).toInt = (s.2 : Int) - (s.1 : Int))
      ↔ x.ShortJumps := by
    rw [shortJumps_iff 0]
    refine forall₂_congr fun s hs => ?_
    rw [hem.jump_byte s hs, toInt_disp_iff]
  rw [OperandsExact, hjump, hconst, ← hvals, map_map]
  refine and_congr_left fun _ => ?_
  rw [map_inj_left]
  simp only [Function.comp, mem_map]
  constructor
  · rintro h k ⟨s, hs, rfl⟩
    exact (toInt_ofNat_iff _).mp (h s hs)
  · intro h s hs
    exact (toInt_ofNat_iff _).mpr (h _ ⟨s, hs, rfl⟩)

/-- The constant 7 is read back as 7. -/
theorem operands_exact_seven :
    parseText "a=7;".toList = .ok (.prog (.expr (.set (.var 0) (.cst 7))))
      ∧ ∃ obj, compile (.prog (.expr (.set (.var 0) (.cst 7)))) = some obj
        ∧ OperandsExact "a=7;".toList (.prog (.expr (.set (.var 0) (.cst 7)))) obj := by
  refine ⟨by decide, _, rfl, (operands_exact_iff (by decide) rfl).mpr ⟨by decide, ?_⟩⟩
  simp [Node.ShortJumps]

/-- The constant of `a=200;` is read back as -56. -/
theorem operands_not_exact_200 : ∃ text x obj, parseText text = .ok x ∧ compile x = some obj
      ∧ ¬ OperandsExact text x obj := by
  refine ⟨"a=200;".toList, .prog (.expr (.set (.var 0) (.cst 200))), _, by decide, rfl, ?_⟩
  intro h
  have hread : [(-56 : Int)] = [200] := h.1
  simp at hread

end TinyC

end CLangProject

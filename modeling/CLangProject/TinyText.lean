import CLangProject.TinyOperand

/-!
# Tiny-C: texts of programs

In the text of a program a blank follows every symbol. The front end reads it back as the tree.
-/

namespace CLangProject.TinyC

open List

def Sym.spelling : Sym → List Char
  | .doSym => ['d', 'o']
  | .elseSym => ['e', 'l', 's', 'e']
  | .ifSym => ['i', 'f']
  | .whileSym => ['w', 'h', 'i', 'l', 'e']
  | .lbra => ['{']
  | .rbra => ['}']
  | .lpar => ['(']
  | .rpar => [')']
  | .plus => ['+']
  | .minus => ['-']
  | .less => ['<']
  | .semi => [';']
  | .equal => ['=']
  | .int n => Nat.toDigits 10 n
  | .id v => [Char.ofNat ('a'.toNat + v)]
  | .eoi => []

def textOf (ts : List Sym) : List Char := ts.flatMap fun s => s.spelling ++ [' ']

variable {s : Sym} {ts : List Sym} {x : Node}

/-- The digit loop stops at the blank; the values on the way are at most the last one. -/
theorem digits_blank {cs : List Char} {v : Nat} (hcs : ∀ c ∈ cs, isDigit c = true)
    (hle : Nat.ofDigitChars 10 cs v ≤ intMax) (rest : List Char) :
    digits v (cs ++ ' ' :: rest) = .ok (Nat.ofDigitChars 10 cs v, ' ' :: rest) := by
  induction cs generalizing v with
  | nil => rfl
  | cons c cs ih =>
    obtain ⟨hc, hcs⟩ := forall_mem_cons.1 hcs
    rw [Nat.ofDigitChars_cons, Nat.mul_comm] at hle ⊢
    have hv := (Nat.le_mul_of_pos_left _ (by positivity)).trans ((Nat.le_add_right ..).trans
      (Nat.ofDigitChars_eq_ofDigitChars_zero.ge.trans hle))
    rw [cons_append, digits, if_pos hc, if_pos hv]
    exact ih hcs hle

theorem nextSym_spelling (hs : s ≠ .eoi) (hint : ∀ n, s = .int n → n ≤ intMax) (rest : List Char) :
    nextSym (s.spelling ++ ' ' :: rest) = .ok (s, ' ' :: rest) := by
  cases s with
  | eoi => exact (hs rfl).elim
  | id v => fin_cases v <;> rfl
  | int n =>
    have hdigit : ∀ c ∈ Nat.toDigits 10 n, isDigit c = true := by
      intro c hc
      have := Nat.isDigit_of_mem_toDigits (by decide) (by decide) hc
      simpa [Char.isDigit, isDigit, Char.le_def] using this
    have hvalue := Nat.ofDigitChars_toDigits (n := n) (show 1 < 10 by decide) (by decide)
    have hread := digits_blank hdigit (hvalue.le.trans (hint n rfl)) rest
    obtain ⟨c, cs, hcs⟩ := exists_cons_of_ne_nil (Nat.toDigits_ne_nil (n := n) (b := 10))
    rw [hvalue, hcs, cons_append] at hread
    have hc := hdigit c (hcs ▸ mem_cons_self)
    have hblank : ¬ (c = ' ' ∨ c = '\n') := by rintro (rfl | rfl) <;> cases hc
    have hsym : charSym? c = none := by
      cases h : charSym? c with
      | none => rfl
      | some s => cases hc.symm.trans (charSym_spec h).1
    simp only [Sym.spelling, hcs, cons_append, nextSym, if_neg hblank, hsym, hc, if_true, hread]
    rfl
  | _ => rfl

theorem symbols_textOf {fuel : Nat} (hts : .eoi ∉ ts) (hint : ∀ n, .int n ∈ ts → n ≤ intMax)
    (hfuel : (textOf ts).length < fuel) : symbols fuel (textOf ts) = .ok ts := by
  induction ts generalizing fuel with
  | nil =>
    obtain ⟨fuel, rfl⟩ := Nat.exists_eq_succ_of_ne_zero (Nat.ne_zero_of_lt hfuel)
    rfl
  | cons s ts ih =>
    obtain ⟨fuel, rfl⟩ := Nat.exists_eq_succ_of_ne_zero (Nat.ne_zero_of_lt hfuel)
    obtain ⟨hs, hts⟩ := not_or.1 (mt mem_cons.2 hts)
    have htext : textOf (s :: ts) = s.spelling ++ ' ' :: textOf ts := by simp [textOf]
    rw [htext, length_append, length_cons] at hfuel
    have hnext :=
      nextSym_spelling (Ne.symm hs) (fun n hn => hint n (hn ▸ mem_cons_self)) (textOf ts)
    -- the blank is skipped together with the next symbol
    have hblank : symbols fuel (' ' :: textOf ts) = symbols fuel (textOf ts) := by
      cases fuel <;> rfl
    rw [symbols, htext, hnext, ok_bind]
    simp only [Ne.symm hs, if_false, hblank]
    rw [ih hts (fun n hn => hint n (mem_cons_of_mem _ hn)) (by omega)]
    rfl

/-- **The front end reads the text of a program:** the scanner finds its symbols, and the parser
the tree of the program. -/
theorem parseText_textOf (hd : Derives .program ts x) (hn : x.NearestElse)
    (hint : ∀ k ∈ x.constants, k ≤ intMax) :
    scan (textOf ts) = .ok ts ∧ parseText (textOf ts) = .ok x := by
  have hle : ∀ n, .int n ∈ ts → n ≤ intMax := by
    intro n hmem
    exact hint n (hd.constants ▸ mem_filterMap.2 ⟨_, hmem, rfl⟩)
  have hscan : scan (textOf ts) = .ok ts := symbols_textOf hd.eoi_not_mem hle (Nat.lt_succ_self _)
  refine ⟨hscan, ?_⟩
  rw [parseText, hscan, ok_bind]
  cases hd with
  | program hd =>
    have hparse :=
      hd.parse hn (parseFuel ts) [] (fun _ => by simp) (by simp only [parseFuel]; omega)
    rw [append_nil] at hparse
    rw [program, hparse, ok_bind]
    rfl

theorem parseText_ten : scan (textOf [.int 10, .semi]) = .ok [.int 10, .semi] ∧
    parseText (textOf [.int 10, .semi]) = .ok (.prog (.expr (.cst 10))) :=
  parseText_textOf (.program (.exprStmt (.exprTest (.testSum (.sumTerm .termInt)))))
    trivial (by decide)

end CLangProject.TinyC

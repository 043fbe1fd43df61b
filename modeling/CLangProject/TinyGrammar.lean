import CLangProject.TinyParse

/-!
# Tiny-C: the parser accepts exactly its grammar

`Derives` transcribes the EBNF grammar of the header comment, one
constructor per alternative, each labelled with the tree it stands for.
The labels make `+` and `-` associate to the left (the left-recursive
alternatives) and `=` to the right; nothing in them constrains the
dangling `else`, so the relation is ambiguous exactly there.
`NearestElse` singles out the trees in which every `else` belongs to the
nearest `if` still without one.

- **soundness** (`statement_sound`): the parser returns, and what it
  returns is derivable and satisfies `NearestElse`;
- **completeness** (`Derives.parse`): every derivation whose tree
  satisfies `NearestElse` is what the parser returns;
- **existence** (`Derives.nearest`): a derivable statement has a
  derivation with `NearestElse`, by moving each misplaced `else` inwards
  (`attachElse`).
-/

namespace CLangProject

open List

namespace TinyC

/-! ## The grammar -/

/-- The nonterminals; `statements` is the repetition `{ <statement> }`. -/
inductive NT where
  | program | statement | statements | parenExpr | expr | test | sum | term
deriving Repr, DecidableEq

inductive Derives : NT → List Sym → Node → Prop where
  | program {ts x} : Derives .statement ts x → Derives .program ts (.prog x)
  | if1 {cs ts c x} : Derives .parenExpr cs c → Derives .statement ts x →
      Derives .statement (.ifSym :: (cs ++ ts)) (.if1 c x)
  | if2 {cs ts us c x y} : Derives .parenExpr cs c → Derives .statement ts x →
      Derives .statement us y →
      Derives .statement (.ifSym :: (cs ++ ts ++ .elseSym :: us)) (.if2 c x y)
  | while_ {cs ts c x} : Derives .parenExpr cs c → Derives .statement ts x →
      Derives .statement (.whileSym :: (cs ++ ts)) (.while_ c x)
  | do_ {ts cs x c} : Derives .statement ts x → Derives .parenExpr cs c →
      Derives .statement (.doSym :: (ts ++ .whileSym :: (cs ++ [.semi]))) (.do_ x c)
  | block {ts x} : Derives .statements ts x → Derives .statement (.lbra :: (ts ++ [.rbra])) x
  | exprStmt {ts x} : Derives .expr ts x → Derives .statement (ts ++ [.semi]) (.expr x)
  | emptyStmt : Derives .statement [.semi] .empty
  | nil : Derives .statements [] .empty
  | snoc {ts us x y} : Derives .statements ts x → Derives .statement us y →
      Derives .statements (ts ++ us) (.seq x y)
  | paren {ts x} : Derives .expr ts x → Derives .parenExpr (.lpar :: (ts ++ [.rpar])) x
  | exprTest {ts x} : Derives .test ts x → Derives .expr ts x
  | exprSet {v ts x} : Derives .expr ts x → Derives .expr (.id v :: .equal :: ts) (.set (.var v) x)
  | testSum {ts x} : Derives .sum ts x → Derives .test ts x
  | testLess {ts us x y} : Derives .sum ts x → Derives .sum us y →
      Derives .test (ts ++ .less :: us) (.lt x y)
  | sumTerm {ts x} : Derives .term ts x → Derives .sum ts x
  | sumPlus {ts us x y} : Derives .sum ts x → Derives .term us y →
      Derives .sum (ts ++ .plus :: us) (.add x y)
  | sumMinus {ts us x y} : Derives .sum ts x → Derives .term us y →
      Derives .sum (ts ++ .minus :: us) (.sub x y)
  | termId {v} : Derives .term [.id v] (.var v)
  | termInt {k} : Derives .term [.int k] (.cst k)
  | termParen {ts x} : Derives .parenExpr ts x → Derives .term ts x

variable {nt : NT} {ts us cs rest : List Sym} {x y c : Node} {n : Nat} {s : Sym}

/-! ## The dangling else -/

/-- The statement ends in an `if` without `else`: an `else` right after it
would belong to that `if`. -/
def Node.endsOpen : Node → Bool
  | .if1 _ _ => true
  | .if2 _ _ o3 => o3.endsOpen
  | .while_ _ o2 => o2.endsOpen
  | _ => false

/-- Every `else` of the tree belongs to the nearest preceding `if` that
lacks one: no `else` follows a statement that ends in an open `if`. -/
def Node.NearestElse : Node → Prop
  | .if1 _ o2 => o2.NearestElse
  | .if2 _ o2 o3 => o2.NearestElse ∧ o2.endsOpen = false ∧ o3.NearestElse
  | .while_ _ o2 => o2.NearestElse
  | .do_ o1 _ => o1.NearestElse
  | .seq o1 o2 => o1.NearestElse ∧ o2.NearestElse
  | .prog o1 => o1.NearestElse
  | _ => True

/-! ## First symbols -/

theorem Derives.ne_nil (h : Derives nt ts x) (hnt : nt ≠ .statements) : ts ≠ [] := by
  induction h <;> simp_all

/-- The symbols a derivation of `nt` can start with. -/
def NT.CanStart : NT → Sym → Prop
  | .program, s | .statement, s | .statements, s =>
    s ≠ .rbra ∧ s ≠ .elseSym ∧ s ≠ .eoi ∧ s ≠ .rpar
  | .parenExpr, s => s = .lpar
  | _, s => s = .lpar ∨ (∃ k, s = .int k) ∨ ∃ v, s = .id v

theorem sym_append (us : List Sym) (h : ts ≠ []) : sym (ts ++ us) = sym ts := by
  cases ts with
  | nil => exact absurd rfl h
  | cons s ts => rfl

theorem Derives.first (h : Derives nt ts x) (hts : ts ≠ []) : nt.CanStart (sym ts) := by
  induction h with
  | program _ ih | exprTest _ ih | testSum _ ih | sumTerm _ ih => exact ih hts
  | exprStmt h ih =>
    have hne := h.ne_nil (by simp)
    rw [sym_append _ hne]
    rcases ih hne with h | ⟨k, h⟩ | ⟨v, h⟩ <;> simp [h, NT.CanStart]
  | @snoc ts us x y h1 h2 ih1 ih2 =>
    by_cases hne : ts = []
    · subst hne; exact ih2 (by simpa using hts)
    · rw [sym_append _ hne]; exact ih1 hne
  | testLess h _ ih _ | sumPlus h _ ih _ | sumMinus h _ ih _ =>
    have hne := h.ne_nil (by simp)
    rw [sym_append _ hne]; exact ih hne
  | termParen h ih => exact Or.inl (ih hts)
  | nil => exact absurd rfl hts
  | _ => simp [NT.CanStart]

variable {v : Fin 26} {pre : List Sym} {x0 : Node}

/-- A variable parsed from an identifier is that one symbol: a
parenthesised variable starts with `(` instead. -/
theorem Derives.var_inv (h : Derives .test ts (.var v)) (hid : ∃ w, sym ts = .id w) :
    ts = [.id v] := by
  obtain ⟨w, hw⟩ := hid
  cases h with
  | testSum h =>
    cases h with
    | sumTerm h =>
      cases h with
      | termId => rfl
      | termParen h =>
        have := h.first (h.ne_nil (by simp))
        simp [NT.CanStart, hw] at this

/-! ## Bind inversion -/

theorem bind_ok {α β : Type} {m : Except Fail α} {f : α → Except Fail β} {b : β} :
    (m >>= f) = .ok b ↔ ∃ a, m = .ok a ∧ f a = .ok b := by
  cases m <;> simp [bind, Except.bind]

theorem ok_inj {α β : Type} {a a' : α} {b b' : β}
    (h : (.ok (a, b) : Except Fail (α × β)) = .ok (a', b')) :
    a = a' ∧ b = b' := Prod.mk.injEq .. ▸ Except.ok.inj h

@[simp] theorem expect_cons (s : Sym) (ts : List Sym) : expect s (s :: ts) = .ok ts := by
  simp [expect]

/-! ## Soundness

By induction on the fuel, all mutually recursive functions at once. A loop
is stated with the derivation of what was read before it. With enough fuel
the only failure is the source's own: each function passes on at least five
units per symbol it has not consumed yet. -/

theorem sym_eq_cons (h : sym ts = s) (hs : s ≠ .eoi) : ts = s :: ts.tail := by
  cases ts with
  | nil => exact absurd h.symm hs
  | cons t ts => rw [← h]; rfl

theorem length_tail_lt (h : sym ts = s) (hs : s ≠ .eoi) : ts.tail.length < ts.length := by
  rw [sym_eq_cons h hs]; simp

/-- Every result of `m` satisfies `Q`, and with `enough` fuel `m` ends by
itself: in a result or in `syntax_error()`. -/
def Yields {α : Type} (enough : Prop) (m : Except Fail α) (Q : α → Prop) : Prop :=
  match m with
  | .ok a => Q a
  | .error e => enough → e = .syntaxError

section Yields

variable {α β : Type} {d e : Prop} {m : Except Fail α} {Q : α → Prop}

theorem Yields.bind {f : α → Except Fail β} {R : β → Prop} (h : Yields e m Q) (hde : d → e)
    (hf : ∀ a, Q a → Yields d (f a) R) : Yields d (m >>= f) R := by
  cases m with
  | error _ => exact fun hd => h (hde hd)
  | ok a => exact hf a h

theorem Yields.mono {R : α → Prop} (h : Yields e m Q) (hde : d → e) (hQ : ∀ a, Q a → R a) :
    Yields d m R := by
  cases m with
  | error _ => exact fun hd => h (hde hd)
  | ok a => exact hQ a h

theorem yields_expect (ts : List Sym) (hs : s ≠ .eoi) : Yields e (expect s ts) (ts = s :: ·) := by
  unfold expect
  split_ifs with h
  · exact sym_eq_cons h hs
  · exact fun _ => rfl

end Yields

/-- A successful run of one of the parser functions on `ts` consumed a
derivable prefix of it. -/
def Consumes (nt : NT) (ts : List Sym) (x : Node) (rest : List Sym) : Prop :=
  ∃ pre, ts = pre ++ rest ∧ Derives nt pre x

theorem Consumes.length_lt
    (h : Consumes nt ts x rest) (hnt : nt ≠ .statements) : rest.length < ts.length := by
  obtain ⟨pre, rfl, hd⟩ := h
  have := length_pos_iff.mpr (hd.ne_nil hnt)
  simp only [length_append]; omega

/-- Of the fuel `n` at least `c` units are not counted for symbols. -/
def Reads (nt : NT) (c n : Nat) (ts : List Sym) (m : Parse) : Prop :=
  Yields (5 * ts.length + c ≤ n) m fun p => Consumes nt ts p.1 p.2

structure ExprSound (n : Nat) : Prop where
  term : ∀ ts, Reads .term 2 n ts (term n ts)
  sum : ∀ ts, Reads .sum 3 n ts (sum n ts)
  sumLoop : ∀ {pre x0} ts, Derives .sum pre x0 →
    Yields (5 * ts.length + 1 ≤ n) (sumLoop n x0 ts) fun p => Consumes .sum (pre ++ ts) p.1 p.2
  test : ∀ ts, Reads .test 4 n ts (test n ts)
  expr : ∀ ts, Reads .expr 5 n ts (expr n ts)
  parenExpr : ∀ ts, Reads .parenExpr 1 n ts (parenExpr n ts)

theorem term_sound (ih : ExprSound n) (ts : List Sym) :
    Reads .term 2 (n + 1) ts (term (n + 1) ts) := by
  rw [term]
  split
  · rename_i v hs
    exact ⟨[.id v], sym_eq_cons hs (by simp), .termId⟩
  · rename_i k hs
    exact ⟨[.int k], sym_eq_cons hs (by simp), .termInt⟩
  · refine (ih.parenExpr ts).mono (by omega) ?_
    rintro p ⟨pre, hpre, hd⟩
    exact ⟨pre, hpre, .termParen hd⟩

theorem sum_sound (ih : ExprSound n) (ts : List Sym) :
    Reads .sum 3 (n + 1) ts (sum (n + 1) ts) := by
  rw [sum]
  refine (ih.term ts).bind (by omega) fun p hp => ?_
  have hlt := hp.length_lt (by simp)
  obtain ⟨pre, rfl, hd⟩ := hp
  exact (ih.sumLoop p.2 (.sumTerm hd)).mono (by omega) fun q hq => hq

theorem sumLoop_sound (ih : ExprSound n) (ts : List Sym) (hpre : Derives .sum pre x0) :
    Yields (5 * ts.length + 1 ≤ n + 1) (sumLoop (n + 1) x0 ts)
      fun p => Consumes .sum (pre ++ ts) p.1 p.2 := by
  -- one turn of the loop, for either operator
  have hturn : ∀ {op : Sym} {mk : Node → Node → Node}, sym ts = op → op ≠ .eoi →
      (∀ {us y}, Derives .term us y → Derives .sum (pre ++ op :: us) (mk x0 y)) →
      Yields (5 * ts.length + 1 ≤ n + 1) (term n ts.tail >>= fun p => sumLoop n (mk x0 p.1) p.2)
        fun p => Consumes .sum (pre ++ ts) p.1 p.2 := by
    intro op mk hop heoi hmk
    have htl := length_tail_lt hop heoi
    refine (ih.term ts.tail).bind (by omega) fun p hp => ?_
    have hlt := hp.length_lt (by simp)
    obtain ⟨tpre, htail, hd⟩ := hp
    refine (ih.sumLoop p.2 (hmk hd)).mono (by omega) fun q hq => ?_
    rw [sym_eq_cons hop heoi, htail]
    simpa using hq
  rw [sumLoop]
  split_ifs with hp hm
  · exact hturn hp (by simp) (.sumPlus hpre)
  · exact hturn hm (by simp) (.sumMinus hpre)
  · exact ⟨pre, rfl, hpre⟩

theorem test_sound (ih : ExprSound n) (ts : List Sym) :
    Reads .test 4 (n + 1) ts (test (n + 1) ts) := by
  rw [test]
  refine (ih.sum ts).bind (by omega) ?_
  rintro ⟨y, us⟩ hp
  have hlt : us.length < ts.length := hp.length_lt (by simp)
  obtain ⟨pre, rfl, hd⟩ := hp
  simp only at hlt ⊢
  split_ifs with hless
  · have htl := length_tail_lt hless (by simp)
    refine (ih.sum us.tail).bind (by omega) ?_
    rintro q ⟨pre', htail, hd'⟩
    refine ⟨pre ++ .less :: pre', ?_, .testLess hd hd'⟩
    rw [sym_eq_cons hless (by simp), htail]
    simp
  · exact ⟨pre, rfl, .testSum hd⟩

theorem expr_sound (ih : ExprSound n) (ts : List Sym) :
    Reads .expr 5 (n + 1) ts (expr (n + 1) ts) := by
  rw [expr]
  split
  · rename_i v hs
    refine (ih.test ts).bind (by omega) ?_
    rintro ⟨y, us⟩ hp
    have hlt : us.length < ts.length := hp.length_lt (by simp)
    obtain ⟨pre, rfl, hd⟩ := hp
    simp only at hlt ⊢
    split
    · rename_i w
      split_ifs with heq
      · have htl := length_tail_lt heq (by simp)
        refine (ih.expr us.tail).bind (by omega) ?_
        rintro q ⟨pre', htail, hd'⟩
        have hone : pre = [.id w] :=
          hd.var_inv ⟨v, by rw [← sym_append us (hd.ne_nil (by simp))]; exact hs⟩
        refine ⟨.id w :: .equal :: pre', ?_, .exprSet hd'⟩
        rw [hone, sym_eq_cons heq (by simp), htail]
        rfl
      · exact ⟨pre, rfl, .exprTest hd⟩
    · exact ⟨pre, rfl, .exprTest hd⟩
  · refine (ih.test ts).mono (by omega) ?_
    rintro p ⟨pre, hpre, hd⟩
    exact ⟨pre, hpre, .exprTest hd⟩

theorem parenExpr_sound (ih : ExprSound n) (ts : List Sym) :
    Reads .parenExpr 1 (n + 1) ts (parenExpr (n + 1) ts) := by
  rw [parenExpr]
  refine (yields_expect ts (by simp)).bind id ?_
  rintro us rfl
  refine (ih.expr us).bind (by rw [length_cons]; omega) ?_
  rintro ⟨y, vs⟩ ⟨pre, rfl, hd⟩
  refine (yields_expect vs (by simp)).bind id ?_
  rintro ws rfl
  exact ⟨.lpar :: (pre ++ [.rpar]), by simp, .paren hd⟩

theorem exprSound : ∀ n : Nat, ExprSound n
  | 0 => by
    constructor <;> intros <;> simp only [Reads, Yields, term, sum, sumLoop, test, expr,
      parenExpr] <;>
      omega
  | n + 1 =>
    have ih := exprSound n
    { term := term_sound ih
      sum := sum_sound ih
      sumLoop := sumLoop_sound ih
      test := test_sound ih
      expr := expr_sound ih
      parenExpr := parenExpr_sound ih }

/-- What `statement` guarantees: a derivation, its `else`s placed, and an
open `if` at its end only where no `else` follows. -/
def StmtConsumes (nt : NT) (ts : List Sym) (x : Node) (rest : List Sym) : Prop :=
  ∃ pre, ts = pre ++ rest ∧ Derives nt pre x ∧ x.NearestElse
    ∧ (x.endsOpen = true → sym rest ≠ .elseSym)

theorem StmtConsumes.length_lt
    (h : StmtConsumes .statement ts x rest) : rest.length < ts.length := by
  obtain ⟨pre, hpre, hd, -⟩ := h
  exact Consumes.length_lt ⟨pre, hpre, hd⟩ (by simp)

structure StmtSound (n : Nat) : Prop where
  statement : ∀ ts, Yields (5 * ts.length + 6 ≤ n) (statement n ts)
    fun p => StmtConsumes .statement ts p.1 p.2
  stmtLoop : ∀ {pre x0} ts, Derives .statements pre x0 → x0.NearestElse → x0.endsOpen = false →
    Yields (5 * ts.length + 7 ≤ n) (stmtLoop n x0 ts) fun p =>
      ∃ full, pre ++ ts = full ++ .rbra :: p.2 ∧ Derives .statements full p.1
        ∧ p.1.NearestElse ∧ p.1.endsOpen = false

theorem statement_sound (ih : StmtSound n) (ts : List Sym) :
    Yields (5 * ts.length + 6 ≤ n + 1) (statement (n + 1) ts)
      fun p => StmtConsumes .statement ts p.1 p.2 := by
  have ihe := exprSound n
  rw [statement]
  split
  case h_1 hs =>
      have htl := length_tail_lt hs (by simp)
      refine (ihe.parenExpr ts.tail).bind (by omega) ?_
      rintro ⟨c, us⟩ hc
      have hus : us.length < ts.tail.length := hc.length_lt (by simp)
      obtain ⟨cs, htail, hdc⟩ := hc
      refine (ih.statement us).bind (by omega) ?_
      rintro ⟨y, vs⟩ hy
      have hvs : vs.length < us.length := hy.length_lt
      obtain ⟨pre, rfl, hdy, hny, hoy⟩ := hy
      simp only
      split_ifs with helse
      · have hws := length_tail_lt helse (by simp)
        refine (ih.statement vs.tail).bind (by omega) ?_
        rintro q ⟨pre', htail', hdz, hnz, hoz⟩
        have hclosed : y.endsOpen = false := by
          cases hb : y.endsOpen with
          | false => rfl
          | true => exact absurd helse (hoy hb)
        refine ⟨.ifSym :: (cs ++ pre ++ .elseSym :: pre'), ?_, .if2 hdc hdy hdz,
          ⟨hny, hclosed, hnz⟩, hoz⟩
        rw [sym_eq_cons hs (by simp), htail, sym_eq_cons helse (by simp), htail']
        simp
      · refine ⟨.ifSym :: (cs ++ pre), ?_, .if1 hdc hdy, hny, fun _ => helse⟩
        rw [sym_eq_cons hs (by simp), htail]; simp
  case h_2 hs =>
      have htl := length_tail_lt hs (by simp)
      refine (ihe.parenExpr ts.tail).bind (by omega) ?_
      rintro ⟨c, us⟩ hc
      have hus : us.length < ts.tail.length := hc.length_lt (by simp)
      obtain ⟨cs, htail, hdc⟩ := hc
      refine (ih.statement us).bind (by omega) ?_
      rintro q ⟨pre, rfl, hdy, hny, hoy⟩
      refine ⟨.whileSym :: (cs ++ pre), ?_, .while_ hdc hdy, hny, hoy⟩
      rw [sym_eq_cons hs (by simp), htail]; simp
  case h_3 hs =>
      have htl := length_tail_lt hs (by simp)
      refine (ih.statement ts.tail).bind (by omega) ?_
      rintro ⟨y, us⟩ hy
      have hus : us.length < ts.tail.length := hy.length_lt
      obtain ⟨pre, htail, hdy, hny, -⟩ := hy
      refine (yields_expect us (by simp)).bind id ?_
      rintro vs rfl
      rw [length_cons] at hus
      refine (ihe.parenExpr vs).bind (by omega) ?_
      rintro ⟨c, ws⟩ ⟨cs, rfl, hdc⟩
      refine (yields_expect ws (by simp)).bind id ?_
      rintro zs rfl
      refine ⟨.doSym :: (pre ++ .whileSym :: (cs ++ [.semi])), ?_, .do_ hdy hdc, hny,
        fun hf => by simp [Node.endsOpen] at hf⟩
      rw [sym_eq_cons hs (by simp), htail]; simp
  case h_4 hs =>
      exact ⟨[.semi], sym_eq_cons hs (by simp), .emptyStmt, trivial,
        fun hf => by simp [Node.endsOpen] at hf⟩
  case h_5 hs =>
      have htl := length_tail_lt hs (by simp)
      refine (ih.stmtLoop ts.tail .nil trivial rfl).mono (by omega) ?_
      rintro p ⟨full, hfull, hd, hn, ho⟩
      refine ⟨.lbra :: (full ++ [.rbra]), ?_, .block hd, hn, fun hf => by simp [ho] at hf⟩
      rw [sym_eq_cons hs (by simp), show ts.tail = full ++ .rbra :: p.2 from hfull]
      simp
  case h_6 =>
      refine (ihe.expr ts).bind (by omega) ?_
      rintro ⟨y, us⟩ ⟨pre, rfl, hd⟩
      refine (yields_expect us (by simp)).bind id ?_
      rintro vs rfl
      exact ⟨pre ++ [.semi], by simp, .exprStmt hd, trivial,
        fun hf => by simp [Node.endsOpen] at hf⟩

theorem stmtLoop_sound (ih : StmtSound n) (ts : List Sym) (hpre : Derives .statements pre x0)
    (hnear : x0.NearestElse) (hopen : x0.endsOpen = false) :
    Yields (5 * ts.length + 7 ≤ n + 1) (stmtLoop (n + 1) x0 ts) fun p =>
      ∃ full, pre ++ ts = full ++ .rbra :: p.2 ∧ Derives .statements full p.1
        ∧ p.1.NearestElse ∧ p.1.endsOpen = false := by
  rw [stmtLoop]
  split_ifs with hr
  · exact ⟨pre, by rw [← sym_eq_cons hr (by simp)], hpre, hnear, hopen⟩
  · refine (ih.statement ts).bind (by omega) fun p hp => ?_
    have hlt := hp.length_lt
    obtain ⟨pre', rfl, hd, hn, -⟩ := hp
    refine (ih.stmtLoop p.2 (.snoc hpre hd) ⟨hnear, hn⟩ rfl).mono (by omega) ?_
    rintro q ⟨full, hfull, hres⟩
    exact ⟨full, by rw [← hfull, append_assoc], hres⟩

theorem stmtSound : ∀ n : Nat, StmtSound n
  | 0 => by constructor <;> intros <;> simp only [Yields, statement, stmtLoop] <;> omega
  | n + 1 =>
    have ih := stmtSound n
    { statement := statement_sound ih
      stmtLoop := stmtLoop_sound ih }

/-- A tree that `program` returns is derived from what comes before an
`EOI`; otherwise it reports a syntax error. -/
theorem yields_program (ts : List Sym) : Yields True (program ts) fun x => ∃ pre rest,
    ts = pre ++ rest ∧ sym rest = .eoi ∧ Derives .program pre x ∧ x.NearestElse := by
  rw [program]
  refine ((stmtSound _).statement ts).bind (by simp only [parseFuel]; omega) ?_
  rintro ⟨x, us⟩ ⟨pre, hpre, hd, hn, -⟩
  simp only
  split_ifs with hend
  · exact ⟨pre, us, hpre, hend, .program hd, hn⟩
  · exact fun _ => rfl

theorem program_sound (h : program ts = .ok x) :
    ∃ pre rest, ts = pre ++ rest ∧ sym rest = .eoi ∧ Derives .program pre x ∧ x.NearestElse := by
  have hy := yields_program ts
  rwa [h] at hy

/-! ## Completeness

By induction on the derivation. `NT.Parses` says for each nonterminal what
the matching function does with a derived prefix, given enough fuel and a
next symbol that does not extend it. The left-recursive `<sum>` and the
repetition `{ <statement> }` are loops in the parser, so for those two the
statement says how far the loop has come. -/

/-- The next symbol continues no `<test>`. -/
def EndsTest (rest : List Sym) : Prop := sym rest ≠ .plus ∧ sym rest ≠ .minus ∧ sym rest ≠ .less

def NT.Parses : NT → List Sym → Node → Prop
  | .term, ts, x => ∀ n rest, 5 * ts.length ≤ n → TinyC.term n (ts ++ rest) = .ok (x, rest)
  | .sum, ts, x => ∀ n rest, 5 * ts.length + 2 ≤ n →
      ∃ m, n ≤ m + ts.length + 1 ∧ TinyC.sum n (ts ++ rest) = sumLoop m x rest
  | .test, ts, x => ∀ n rest, EndsTest rest → 5 * ts.length + 3 ≤ n →
      TinyC.test n (ts ++ rest) = .ok (x, rest)
  | .expr, ts, x => ∀ n rest, EndsTest rest → sym rest ≠ .equal →
      5 * ts.length + 4 ≤ n → TinyC.expr n (ts ++ rest) = .ok (x, rest)
  | .parenExpr, ts, x => ∀ n rest, 5 * ts.length ≤ n + 1 →
      TinyC.parenExpr n (ts ++ rest) = .ok (x, rest)
  | .statements, ts, x => x.NearestElse → ∀ n rest, sym rest ≠ .elseSym → 5 * ts.length + 1 ≤ n →
      ∃ m, n ≤ m + ts.length ∧ stmtLoop n .empty (ts ++ rest) = stmtLoop m x rest
  | .statement, ts, x | .program, ts, .prog x => x.NearestElse → ∀ n rest,
      (x.endsOpen = true → sym rest ≠ .elseSym) → 5 * ts.length ≤ n →
      TinyC.statement n (ts ++ rest) = .ok (x, rest)
  | .program, _, _ => False

theorem ok_bind {α β : Type} (a : α) (f : α → Except Fail β) : (Except.ok a >>= f) = f a := rfl

theorem sumLoop_stop (hn : 1 ≤ n) (hp : sym rest ≠ .plus) (hm : sym rest ≠ .minus) :
    sumLoop n x rest = .ok (x, rest) := by
  obtain ⟨k, rfl⟩ := Nat.exists_eq_add_of_le' hn
  simp [sumLoop, hp, hm]

theorem stmtLoop_stop (hn : 1 ≤ n) : stmtLoop n x (.rbra :: rest) = .ok (x, rest) := by
  obtain ⟨k, rfl⟩ := Nat.exists_eq_add_of_le' hn
  simp [stmtLoop]

/-- A derived `<sum>` is read whole where no operator follows. -/
theorem parses_sum (h : NT.sum.Parses ts x) (hn : 5 * ts.length + 2 ≤ n)
    (hp : sym rest ≠ .plus) (hm : sym rest ≠ .minus) : sum n (ts ++ rest) = .ok (x, rest) := by
  obtain ⟨m, hm', heq⟩ := h n rest hn
  rw [heq, sumLoop_stop (by omega) hp hm]

theorem parses_term_paren (hd : Derives .parenExpr ts x)
    (ih : NT.parenExpr.Parses ts x) : NT.term.Parses ts x := by
  intro n rest hn
  have hfirst : sym (ts ++ rest) = .lpar := by
    rw [sym_append _ (hd.ne_nil (by simp))]
    exact hd.first (hd.ne_nil (by simp))
  have hpos : 0 < ts.length := length_pos_iff.mpr (hd.ne_nil (by simp))
  obtain ⟨k, rfl⟩ := Nat.exists_eq_add_of_le' (by omega : 1 ≤ n)
  rw [term, hfirst]
  exact ih k rest (by omega)

/-- One turn of the loop of `sum`, for either operator. -/
theorem parses_sum_step {mk : Node → Node → Node} (hstep : ∀ n rest, sumLoop (n + 1) x (s :: rest)
      = term n rest >>= fun p => sumLoop n (mk x p.1) p.2)
    (ih1 : NT.sum.Parses ts x) (ih2 : NT.term.Parses us y) :
    NT.sum.Parses (ts ++ s :: us) (mk x y) := by
  intro n rest hn
  simp only [length_append, length_cons] at hn
  obtain ⟨m, hm, heq⟩ := ih1 n (s :: us ++ rest) (by omega)
  obtain ⟨k, rfl⟩ := Nat.exists_eq_add_of_le' (by omega : 1 ≤ m)
  refine ⟨k, by simp only [length_append, length_cons]; omega, ?_⟩
  rw [append_assoc, heq, cons_append, hstep, ih2 k rest (by omega), ok_bind]

theorem parses_testLess (ih1 : NT.sum.Parses ts x)
    (ih2 : NT.sum.Parses us y) : NT.test.Parses (ts ++ .less :: us) (.lt x y) := by
  intro n rest hrest hn
  simp only [length_append, length_cons] at hn
  obtain ⟨k, rfl⟩ := Nat.exists_eq_add_of_le' (by omega : 1 ≤ n)
  rw [test, append_assoc, parses_sum ih1 (by omega) (by simp) (by simp), ok_bind]
  simp only [cons_append, sym_cons, tail_cons, if_true]
  rw [parses_sum ih2 (by omega) hrest.1 hrest.2.1, ok_bind]

theorem parses_testSum (ih : NT.sum.Parses ts x) : NT.test.Parses ts x := by
  intro n rest hrest hn
  obtain ⟨k, rfl⟩ := Nat.exists_eq_add_of_le' (by omega : 1 ≤ n)
  rw [test, parses_sum ih (by omega) hrest.1 hrest.2.1, ok_bind]
  simp only [if_neg hrest.2.2]

theorem parses_exprTest (ih : NT.test.Parses ts x) : NT.expr.Parses ts x := by
  intro n rest hrest heq hn
  obtain ⟨k, rfl⟩ := Nat.exists_eq_add_of_le' (by omega : 1 ≤ n)
  have ht := ih k rest hrest (by omega)
  rw [expr, ht]
  split
  · rw [ok_bind]
    cases x <;> simp [heq]
  · rfl

theorem parses_exprSet (ih : NT.expr.Parses ts x) :
    NT.expr.Parses (.id v :: .equal :: ts) (.set (.var v) x) := by
  intro n rest hrest heq hn
  simp only [length_cons] at hn
  obtain ⟨k, rfl⟩ := Nat.exists_eq_add_of_le' (by omega : 4 ≤ n)
  have hvar : test (k + 3) (.id v :: .equal :: (ts ++ rest))
      = .ok (.var v, .equal :: (ts ++ rest)) := by
    rw [test, sum, term]
    simp only [sym_cons, tail_cons, ok_bind]
    rw [sumLoop_stop (by omega) (by simp) (by simp)]
    simp [ok_bind]
  simp only [cons_append]
  rw [expr]
  simp only [sym_cons, hvar, ok_bind, if_true, tail_cons]
  rw [ih (k + 3) rest hrest heq (by omega), ok_bind]

theorem parses_paren (ih : NT.expr.Parses ts x) :
    NT.parenExpr.Parses (.lpar :: (ts ++ [.rpar])) x := by
  intro n rest hn
  simp only [length_append, length_cons, length_nil] at hn
  obtain ⟨k, rfl⟩ := Nat.exists_eq_add_of_le' (by omega : 1 ≤ n)
  rw [parenExpr, cons_append, expect_cons, ok_bind, append_assoc,
    ih k _ (by simp [EndsTest]) (by simp) (by omega), ok_bind]
  simp [ok_bind]

theorem parses_exprStmt (hd : Derives .expr ts x)
    (ih : NT.expr.Parses ts x) : NT.statement.Parses (ts ++ [.semi]) (.expr x) := by
  intro _ n rest _ hn
  simp only [length_append, length_cons, length_nil] at hn
  obtain ⟨k, rfl⟩ := Nat.exists_eq_add_of_le' (by omega : 1 ≤ n)
  have hfirst : sym (ts ++ [.semi] ++ rest) = sym ts := by
    rw [append_assoc, sym_append _ (hd.ne_nil (by simp))]
  have hexpr := ih k (.semi :: rest) (by simp [EndsTest]) (by simp) (by omega)
  rw [statement, hfirst, append_assoc, singleton_append, hexpr]
  rcases hd.first (hd.ne_nil (by simp)) with h | ⟨j, h⟩ | ⟨v, h⟩ <;>
    simp [h, ok_bind]

theorem parses_if1 (ihc : NT.parenExpr.Parses cs c) (ih : NT.statement.Parses ts x) :
    NT.statement.Parses (.ifSym :: (cs ++ ts)) (.if1 c x) := by
  intro hnear n rest hopen hn
  simp only [length_append, length_cons] at hn
  obtain ⟨k, rfl⟩ := Nat.exists_eq_add_of_le' (by omega : 1 ≤ n)
  have helse : sym rest ≠ .elseSym := hopen rfl
  rw [cons_append, statement]
  simp only [sym_cons, tail_cons, append_assoc]
  rw [ihc k _ (by omega), ok_bind]
  simp only
  rw [ih hnear k _ (fun _ => helse) (by omega), ok_bind]
  simp [helse]

theorem parses_if2 (ihc : NT.parenExpr.Parses cs c) (ihx : NT.statement.Parses ts x)
    (ihy : NT.statement.Parses us y) :
    NT.statement.Parses (.ifSym :: (cs ++ ts ++ .elseSym :: us)) (.if2 c x y) := by
  intro hnear n rest hopen hn
  obtain ⟨hnx, hclosed, hny⟩ := hnear
  simp only [length_append, length_cons] at hn
  obtain ⟨k, rfl⟩ := Nat.exists_eq_add_of_le' (by omega : 1 ≤ n)
  rw [cons_append, statement]
  simp only [sym_cons, tail_cons, append_assoc, cons_append]
  rw [ihc k _ (by omega), ok_bind]
  simp only
  rw [ihx hnx k _ (fun h => by simp [hclosed] at h) (by omega), ok_bind]
  simp only [sym_cons, if_true, tail_cons]
  rw [ihy hny k _ hopen (by omega), ok_bind]

theorem parses_while (ihc : NT.parenExpr.Parses cs c) (ih : NT.statement.Parses ts x) :
    NT.statement.Parses (.whileSym :: (cs ++ ts)) (.while_ c x) := by
  intro hnear n rest hopen hn
  simp only [length_append, length_cons] at hn
  obtain ⟨k, rfl⟩ := Nat.exists_eq_add_of_le' (by omega : 1 ≤ n)
  rw [cons_append, statement]
  simp only [sym_cons, tail_cons, append_assoc]
  rw [ihc k _ (by omega), ok_bind]
  simp only
  rw [ih hnear k _ hopen (by omega), ok_bind]

theorem parses_do (ih : NT.statement.Parses ts x) (ihc : NT.parenExpr.Parses cs c) :
    NT.statement.Parses (.doSym :: (ts ++ .whileSym :: (cs ++ [.semi]))) (.do_ x c) := by
  intro hnear n rest _ hn
  simp only [length_append, length_cons, length_nil] at hn
  obtain ⟨k, rfl⟩ := Nat.exists_eq_add_of_le' (by omega : 1 ≤ n)
  rw [cons_append, statement]
  simp only [sym_cons, tail_cons, append_assoc, cons_append]
  rw [ih hnear k _ (by simp) (by omega), ok_bind]
  simp only [expect_cons, ok_bind]
  rw [ihc k _ (by omega), ok_bind]
  simp [ok_bind]

theorem parses_block (ih : NT.statements.Parses ts x) :
    NT.statement.Parses (.lbra :: (ts ++ [.rbra])) x := by
  intro hnear n rest _ hn
  simp only [length_append, length_cons, length_nil] at hn
  obtain ⟨k, rfl⟩ := Nat.exists_eq_add_of_le' (by omega : 1 ≤ n)
  obtain ⟨m, hm, heq⟩ := ih hnear k (.rbra :: rest) (by simp) (by omega)
  rw [cons_append, statement]
  simp only [sym_cons, tail_cons, append_assoc, singleton_append]
  rw [heq, stmtLoop_stop (by omega)]

theorem parses_snoc (hd : Derives .statement us y)
    (ih1 : NT.statements.Parses ts x) (ih2 : NT.statement.Parses us y) :
    NT.statements.Parses (ts ++ us) (.seq x y) := by
  intro hnear n rest helse hn
  have hne := hd.ne_nil (by simp)
  obtain ⟨hrbra, hfe, -⟩ := hd.first hne
  have hpos : 0 < us.length := length_pos_iff.mpr hne
  simp only [length_append] at hn
  obtain ⟨m, hm, heq⟩ := ih1 hnear.1 n (us ++ rest) (by rw [sym_append _ hne]; exact hfe) (by omega)
  obtain ⟨k, rfl⟩ := Nat.exists_eq_add_of_le' (by omega : 1 ≤ m)
  refine ⟨k, by simp only [length_append]; omega, ?_⟩
  rw [append_assoc, heq, stmtLoop, sym_append _ hne, if_neg hrbra,
    ih2 hnear.2 k rest (fun _ => helse) (by omega), ok_bind]

theorem Derives.parse (h : Derives nt ts x) : nt.Parses ts x := by
  induction h with
  | program _ ih => exact ih
  | if1 _ _ ihc ih => exact parses_if1 ihc ih
  | if2 _ _ _ ihc ihx ihy => exact parses_if2 ihc ihx ihy
  | while_ _ _ ihc ih => exact parses_while ihc ih
  | do_ _ _ ih ihc => exact parses_do ih ihc
  | block _ ih => exact parses_block ih
  | exprStmt hd ih => exact parses_exprStmt hd ih
  | emptyStmt =>
    intro _ n rest _ hn
    obtain ⟨k, rfl⟩ := Nat.exists_eq_add_of_le' (by simpa using hn : 5 ≤ n)
    rfl
  | nil => exact fun _ n rest _ _ => ⟨n, by simp, rfl⟩
  | snoc _ hd ih1 ih2 => exact parses_snoc hd ih1 ih2
  | paren _ ih => exact parses_paren ih
  | exprTest _ ih => exact parses_exprTest ih
  | exprSet _ ih => exact parses_exprSet ih
  | testSum _ ih => exact parses_testSum ih
  | testLess _ _ ih1 ih2 => exact parses_testLess ih1 ih2
  | sumTerm _ ih =>
    intro n rest hn
    obtain ⟨k, rfl⟩ := Nat.exists_eq_add_of_le' (by omega : 1 ≤ n)
    exact ⟨k, by omega, by rw [sum, ih k rest (by omega), ok_bind]⟩
  | sumPlus _ _ ih1 ih2 | sumMinus _ _ ih1 ih2 =>
    exact parses_sum_step (fun n rest => by rw [sumLoop]; simp) ih1 ih2
  | termId | termInt =>
    intro n rest hn
    obtain ⟨k, rfl⟩ := Nat.exists_eq_add_of_le' (by simpa using hn : 5 ≤ n)
    simp [term]
  | termParen hd ih => exact parses_term_paren hd ih

/-! ## Placing every else

An ambiguous sequence has a derivation in which the `else`s are placed:
give a misplaced one to the innermost open `if` of the statement before
it. -/

/-- Give `else y` to the last `if` of `x` that is still open. -/
def attachElse : Node → Node → Node
  | .if1 c x, y => if x.endsOpen then .if1 c (attachElse x y) else .if2 c x y
  | .if2 c x z, y => .if2 c x (attachElse z y)
  | .while_ c x, y => .while_ c (attachElse x y)
  | x, _ => x

theorem Derives.statements_closed (h : Derives .statements ts x) : x.endsOpen = false := by
  cases h <;> rfl

theorem derives_attachElse (hy : Derives .statement us y)
    (hny : y.NearestElse) (h : Derives .statement ts x)
    (hopen : x.endsOpen = true) (hnear : x.NearestElse) :
    Derives .statement (ts ++ .elseSym :: us) (attachElse x y) ∧ (attachElse x y).NearestElse := by
  generalize hnt : NT.statement = nt at h
  induction h with
  | @if1 cs ts c x hc hx _ ih =>
    simp only [attachElse]
    split_ifs with hx'
    · obtain ⟨hd, hn⟩ := ih hx' hnear rfl
      have := Derives.if1 hc hd
      exact ⟨by simpa using this, hn⟩
    · have := Derives.if2 hc hx hy
      exact ⟨by simpa using this, hnear, by simpa using hx', hny⟩
  | @if2 cs ts vs c x z hc hx _ _ _ ih =>
    obtain ⟨hnx, hcl, hnz⟩ := hnear
    obtain ⟨hd, hn⟩ := ih hopen hnz rfl
    have := Derives.if2 hc hx hd
    exact ⟨by simpa [attachElse] using this, hnx, hcl, hn⟩
  | @while_ cs ts c x hc _ _ ih =>
    obtain ⟨hd, hn⟩ := ih hopen hnear rfl
    have := Derives.while_ hc hd
    exact ⟨by simpa [attachElse] using this, hn⟩
  | block hd => rw [hd.statements_closed] at hopen; cases hopen
  | _ => first | simp [Node.endsOpen] at hopen | cases hnt

/-- Whatever is derivable is derivable with every `else` at the nearest
open `if`. -/
theorem Derives.nearest (h : Derives nt ts x) : ∃ x', Derives nt ts x' ∧ x'.NearestElse := by
  induction h with
  | program _ ih => obtain ⟨x', hd, hn⟩ := ih; exact ⟨_, .program hd, hn⟩
  | if1 hc _ _ ih => obtain ⟨x', hd, hn⟩ := ih; exact ⟨_, .if1 hc hd, hn⟩
  | if2 hc _ _ _ ihx ihy =>
    obtain ⟨x', hdx, hnx⟩ := ihx
    obtain ⟨y', hdy, hny⟩ := ihy
    by_cases hopen : x'.endsOpen = true
    · obtain ⟨hd, hn⟩ := derives_attachElse hdy hny hdx hopen hnx
      exact ⟨.if1 _ _, by simpa using Derives.if1 hc hd, hn⟩
    · exact ⟨_, .if2 hc hdx hdy, hnx, by simpa using hopen, hny⟩
  | while_ hc _ _ ih => obtain ⟨x', hd, hn⟩ := ih; exact ⟨_, .while_ hc hd, hn⟩
  | do_ _ hc ih _ => obtain ⟨x', hd, hn⟩ := ih; exact ⟨_, .do_ hd hc, hn⟩
  | block _ ih => obtain ⟨x', hd, hn⟩ := ih; exact ⟨x', .block hd, hn⟩
  | exprStmt hd _ => exact ⟨_, .exprStmt hd, trivial⟩
  | emptyStmt => exact ⟨_, .emptyStmt, trivial⟩
  | nil => exact ⟨_, .nil, trivial⟩
  | snoc _ _ ihx ihy =>
    obtain ⟨x', hdx, hnx⟩ := ihx
    obtain ⟨y', hdy, hny⟩ := ihy
    exact ⟨_, .snoc hdx hdy, hnx, hny⟩
  | paren _ ih => obtain ⟨x', hd, hn⟩ := ih; exact ⟨x', .paren hd, hn⟩
  | exprTest _ ih => obtain ⟨x', hd, hn⟩ := ih; exact ⟨x', .exprTest hd, hn⟩
  | exprSet hd _ => exact ⟨_, .exprSet hd, trivial⟩
  | testSum _ ih => obtain ⟨x', hd, hn⟩ := ih; exact ⟨x', .testSum hd, hn⟩
  | testLess hx hy _ _ => exact ⟨_, .testLess hx hy, trivial⟩
  | sumTerm _ ih => obtain ⟨x', hd, hn⟩ := ih; exact ⟨x', .sumTerm hd, hn⟩
  | sumPlus hx hy _ _ => exact ⟨_, .sumPlus hx hy, trivial⟩
  | sumMinus hx hy _ _ => exact ⟨_, .sumMinus hx hy, trivial⟩
  | termId => exact ⟨_, .termId, trivial⟩
  | termInt => exact ⟨_, .termInt, trivial⟩
  | termParen _ ih => obtain ⟨x', hd, hn⟩ := ih; exact ⟨x', .termParen hd, hn⟩

/-! ## The parser and its grammar -/

theorem Derives.eoi_not_mem (h : Derives nt ts x) : .eoi ∉ ts := by
  induction h <;> simp_all

/-- The part before the first occurrence of a symbol is determined. -/
theorem append_cons_cancel {as bs ds : List Sym} (ha : s ∉ as) (hc : s ∉ cs)
    (h : as ++ s :: bs = cs ++ s :: ds) : as = cs := by
  induction as generalizing cs with
  | nil =>
    cases cs with
    | nil => rfl
    | cons c cs => simp_all
  | cons a as ih =>
    cases cs with
    | nil => simp_all
    | cons c cs =>
      simp only [cons_append, List.cons.injEq, mem_cons, not_or] at h ha hc
      rw [h.1, ih ha.2 hc.2 h.2]

theorem program_ok_iff (heoi : .eoi ∉ ts) (x : Node) :
    program (ts ++ [.eoi]) = .ok x ↔ Derives .program ts x ∧ x.NearestElse := by
  constructor
  · intro h
    obtain ⟨pre, rest, hpre, hend, hd, hn⟩ := program_sound h
    -- a derivation holds no `EOI`, so the prefix stops at the last symbol
    have hrest : rest ≠ [] := by
      rintro rfl
      exact hd.eoi_not_mem (by rw [← append_nil pre, ← hpre]; simp)
    obtain ⟨s, us, rfl⟩ := exists_cons_of_ne_nil hrest
    obtain rfl : s = .eoi := hend
    rw [append_cons_cancel heoi hd.eoi_not_mem hpre]
    exact ⟨hd, hn⟩
  · rintro ⟨hd, hn⟩
    cases hd with
    | @program _ y hd =>
      have := hd.parse hn (parseFuel (ts ++ [.eoi])) [.eoi] (fun _ => by simp)
        (by simp only [parseFuel, length_append]; omega)
      rw [program, this, ok_bind]
      simp

/-- **The parser accepts exactly its grammar.** On every symbol sequence
closed by `EOI`, `program` returns a tree or ends in `syntax_error`. It
returns one exactly when the sequence is derivable, and the tree it
returns is the label of the derivation in which every `else` belongs to
the nearest preceding `if` that lacks one. -/
theorem program_accepts_grammar (ts : List Sym) (heoi : .eoi ∉ ts) :
    ((∃ x, program (ts ++ [.eoi]) = .ok x) ∨ program (ts ++ [.eoi]) = .error .syntaxError)
      ∧ ((∃ x, program (ts ++ [.eoi]) = .ok x) ↔ ∃ x, Derives .program ts x)
      ∧ ∀ x, program (ts ++ [.eoi]) = .ok x ↔ Derives .program ts x ∧ x.NearestElse := by
  have hiff := program_ok_iff heoi
  refine ⟨?_, ⟨?_, ?_⟩, hiff⟩
  · cases hp : program (ts ++ [.eoi]) with
    | ok x => exact Or.inl ⟨x, rfl⟩
    | error e =>
      have hy := yields_program (ts ++ [.eoi])
      rw [hp] at hy
      rw [show e = .syntaxError from hy trivial]
      exact Or.inr rfl
  · rintro ⟨x, hx⟩
    exact ⟨x, ((hiff x).mp hx).1⟩
  · rintro ⟨x, hx⟩
    obtain ⟨x', hd, hn⟩ := hx.nearest
    exact ⟨x', (hiff x').mpr ⟨hd, hn⟩⟩

/-- The ambiguous `if (a) if (b) ; else ;`, whose `else` goes to the inner
`if`. -/
theorem program_accepts_dangling_else :
    (.eoi : Sym) ∉ [.ifSym, .lpar, .id 0, .rpar, .ifSym, .lpar, .id 1, .rpar, .semi,
        .elseSym, .semi]
      ∧ Derives .program [.ifSym, .lpar, .id 0, .rpar, .ifSym, .lpar, .id 1, .rpar, .semi,
          .elseSym, .semi] (.prog (.if1 (.var 0) (.if2 (.var 1) .empty .empty))) :=
  ⟨by decide, (((program_accepts_grammar _ (by decide)).2.2 _).mp (by decide)).1⟩

end TinyC

end CLangProject

import Mathlib

/-!
# Tiny-C: scanner and parser

The front end of `tinyc.c`. The scanner (`nextSym`) turns characters
into symbols, the parser is the recursive descent of the source: one
function per nonterminal, each looking only at the current symbol.

Three ways to fail are kept apart. `syntaxError` is the source's
`syntax_error()`. `overflow` marks the two places the source itself
labels "missing overflow check" (the value of a constant in an `int`,
the letters of a name in `id_name[100]`); there the C program has no
defined behaviour. `outOfFuel` belongs to the model: the parser
recurses on a fuel argument, and `TinyGrammar` shows that `program`
always supplies enough.
-/

namespace CLangProject

namespace TinyC

/-! ## Symbols and nodes -/

/-- The scanner's `enum`, with the two payloads the parser reads:
`int_val` and the letter `id_name[0] - 'a'`. -/
inductive Sym where
  | doSym | elseSym | ifSym | whileSym
  | lbra | rbra | lpar | rpar
  | plus | minus | less | semi | equal
  | int (intVal : Nat)
  | id (name : Fin 26)
  | eoi
deriving Repr, DecidableEq

/-- `struct node`: one constructor per value of `kind`, with the operands
that kind sets. -/
inductive Node where
  | var (val : Fin 26)
  | cst (val : Nat)
  | add (o1 o2 : Node)
  | sub (o1 o2 : Node)
  | lt (o1 o2 : Node)
  | set (o1 o2 : Node)
  | if1 (o1 o2 : Node)
  | if2 (o1 o2 o3 : Node)
  | while_ (o1 o2 : Node)
  | do_ (o1 o2 : Node)
  | empty
  | seq (o1 o2 : Node)
  | expr (o1 : Node)
  | prog (o1 : Node)
deriving Repr, DecidableEq

inductive Fail where
  | syntaxError
  | overflow
  | outOfFuel
deriving Repr, DecidableEq

/-! ## Scanner -/

/-- The largest `int`. -/
def intMax : Nat := 2 ^ 31 - 1

def isDigit (ch : Char) : Bool := '0' ≤ ch ∧ ch ≤ '9'

def isLower (ch : Char) : Bool := 'a' ≤ ch ∧ ch ≤ 'z'

/-- The digit loop of `next_sym`, accumulating `int_val`. -/
def digits (intVal : Nat) : List Char → Except Fail (Nat × List Char)
  | [] => .ok (intVal, [])
  | ch :: rest =>
    if isDigit ch then
      let v := intVal * 10 + (ch.toNat - '0'.toNat)
      if v ≤ intMax then digits v rest else .error .overflow
    else .ok (intVal, ch :: rest)

/-- The letter loop of `next_sym`: what goes into `id_name`, and the rest. -/
def letters : List Char → List Char × List Char
  | [] => ([], [])
  | ch :: rest =>
    if isLower ch ∨ ch = '_' then
      let (name, rest') := letters rest
      (ch :: name, rest')
    else ([], ch :: rest)

/-- The position of a lower-case letter in the alphabet. -/
def letterIndex (ch : Char) : Fin 26 := Fin.ofNat 26 (ch.toNat - 'a'.toNat)

/-- The search in `words[]`, then the test for a one-letter name. -/
def wordSym (name : List Char) : Except Fail Sym :=
  if name = ['d', 'o'] then .ok .doSym
  else if name = ['e', 'l', 's', 'e'] then .ok .elseSym
  else if name = ['i', 'f'] then .ok .ifSym
  else if name = ['w', 'h', 'i', 'l', 'e'] then .ok .whileSym
  else match name with
    | [ch] => .ok (.id (letterIndex ch))
    | _ => .error .syntaxError

/-- The one-character symbols, each a case of its own in `next_sym`. -/
def charSym? : Char → Option Sym
  | '{' => some .lbra
  | '}' => some .rbra
  | '(' => some .lpar
  | ')' => some .rpar
  | '+' => some .plus
  | '-' => some .minus
  | '<' => some .less
  | ';' => some .semi
  | '=' => some .equal
  | _ => none

def nextSym : List Char → Except Fail (Sym × List Char)
  | [] => .ok (.eoi, [])
  | ch :: rest =>
    if ch = ' ' ∨ ch = '\n' then nextSym rest
    else match charSym? ch with
      | some s => .ok (s, rest)
      | none =>
        if isDigit ch then do
          let (v, rest') ← digits 0 (ch :: rest)
          .ok (.int v, rest')
        else if isLower ch then
          let (name, rest') := letters (ch :: rest)
          -- `id_name` has 100 cells, one of them for the terminating zero
          if name.length < 100 then do
            let s ← wordSym name
            .ok (s, rest')
          else .error .overflow
        else .error .syntaxError

/-- All symbols of a text up to `EOI`, which is not part of the list. -/
def symbols : Nat → List Char → Except Fail (List Sym)
  | 0, _ => .error .outOfFuel
  | fuel + 1, text => do
    let (s, rest) ← nextSym text
    if s = .eoi then .ok []
    else do
      let ss ← symbols fuel rest
      .ok (s :: ss)

def scan (text : List Char) : Except Fail (List Sym) := symbols (text.length + 1) text

/-! ## Parser

The parser state is the list of symbols not yet consumed; `sym` is its
head and stays `EOI` once the input is exhausted, as `next_sym` does at
end of file. -/

/-- The current symbol. -/
def sym : List Sym → Sym
  | [] => .eoi
  | s :: _ => s

@[simp] theorem sym_nil : sym [] = .eoi := rfl

@[simp] theorem sym_cons (s : Sym) (ts : List Sym) : sym (s :: ts) = s := rfl

abbrev Parse := Except Fail (Node × List Sym)

/-- `if (sym == s) next_sym(); else syntax_error();` -/
def expect (s : Sym) (ts : List Sym) : Except Fail (List Sym) :=
  if sym ts = s then .ok ts.tail else .error .syntaxError

mutual

def term : Nat → List Sym → Parse
  | 0, _ => .error .outOfFuel
  | fuel + 1, ts =>
    match sym ts with
    | .id v => .ok (.var v, ts.tail)
    | .int k => .ok (.cst k, ts.tail)
    | _ => parenExpr fuel ts

def sum : Nat → List Sym → Parse
  | 0, _ => .error .outOfFuel
  | fuel + 1, ts => do
    let (x, ts) ← term fuel ts
    sumLoop fuel x ts

/-- The `while` of `sum`: `x` is the tree built so far. -/
def sumLoop : Nat → Node → List Sym → Parse
  | 0, _, _ => .error .outOfFuel
  | fuel + 1, x, ts =>
    if sym ts = .plus then do
      let (y, ts) ← term fuel ts.tail
      sumLoop fuel (.add x y) ts
    else if sym ts = .minus then do
      let (y, ts) ← term fuel ts.tail
      sumLoop fuel (.sub x y) ts
    else .ok (x, ts)

def test : Nat → List Sym → Parse
  | 0, _ => .error .outOfFuel
  | fuel + 1, ts => do
    let (x, ts) ← sum fuel ts
    if sym ts = .less then do
      let (y, ts) ← sum fuel ts.tail
      .ok (.lt x y, ts)
    else .ok (x, ts)

def expr : Nat → List Sym → Parse
  | 0, _ => .error .outOfFuel
  | fuel + 1, ts =>
    match sym ts with
    | .id _ => do
      let (x, ts) ← test fuel ts
      match x with
      | .var v =>
        if sym ts = .equal then do
          let (y, ts) ← expr fuel ts.tail
          .ok (.set (.var v) y, ts)
        else .ok (.var v, ts)
      | x => .ok (x, ts)
    | _ => test fuel ts

def parenExpr : Nat → List Sym → Parse
  | 0, _ => .error .outOfFuel
  | fuel + 1, ts => do
    let ts ← expect .lpar ts
    let (x, ts) ← expr fuel ts
    let ts ← expect .rpar ts
    .ok (x, ts)

end

mutual

def statement : Nat → List Sym → Parse
  | 0, _ => .error .outOfFuel
  | fuel + 1, ts =>
    match sym ts with
    | .ifSym => do
      let (o1, ts) ← parenExpr fuel ts.tail
      let (o2, ts) ← statement fuel ts
      if sym ts = .elseSym then do
        let (o3, ts) ← statement fuel ts.tail
        .ok (.if2 o1 o2 o3, ts)
      else .ok (.if1 o1 o2, ts)
    | .whileSym => do
      let (o1, ts) ← parenExpr fuel ts.tail
      let (o2, ts) ← statement fuel ts
      .ok (.while_ o1 o2, ts)
    | .doSym => do
      let (o1, ts) ← statement fuel ts.tail
      let ts ← expect .whileSym ts
      let (o2, ts) ← parenExpr fuel ts
      let ts ← expect .semi ts
      .ok (.do_ o1 o2, ts)
    | .semi => .ok (.empty, ts.tail)
    | .lbra => stmtLoop fuel .empty ts.tail
    | _ => do
      let (o1, ts) ← expr fuel ts
      let ts ← expect .semi ts
      .ok (.expr o1, ts)

/-- The `while` of a compound statement: `x` chains the statements read so
far. -/
def stmtLoop : Nat → Node → List Sym → Parse
  | 0, _, _ => .error .outOfFuel
  | fuel + 1, x, ts =>
    if sym ts = .rbra then .ok (x, ts.tail)
    else do
      let (o2, ts) ← statement fuel ts
      stmtLoop fuel (.seq x o2) ts

end

/-- Fuel that `TinyGrammar` shows to be enough for `ts`. -/
def parseFuel (ts : List Sym) : Nat := 8 * ts.length + 8

def program (ts : List Sym) : Except Fail Node := do
  let (x, ts) ← statement (parseFuel ts) ts
  if sym ts = .eoi then .ok (.prog x) else .error .syntaxError

/-- The front end as a whole: from the text on standard input to the tree.
The source scans on demand; `program` accepts only after it has seen
`EOI`, so the accepted texts are those with all symbols scanned. -/
def parseText (text : List Char) : Except Fail Node := do
  let ts ← scan text
  program ts

end TinyC

end CLangProject

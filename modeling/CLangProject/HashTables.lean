import CLangProject.PerfHash

/-!
# Hash tables with chains

`un_i_hash.c` hashes integers, `un_s_hash.c` strings, with coefficients that are drawn when the
first string of their length is hashed. Every key has a stack of objects (`stack`), and a call works
on the stack of its key only (`onChain_ok`). `find_mtf` moves the top of a stack to the front of the
chain, past the objects of other keys.

An `int` wraps around (`wrap`), and `%` takes the sign of its left operand. A call has no result if
the index is outside of the table. A string is the list of its characters before the 0; the loops
that compare two strings up to their ends compare these lists.
-/

namespace CLangProject.HashTables

open List Function
open PerfHash (MAXP)

/-! ## Chains -/

variable {κ ο : Type} [DecidableEq κ] {k k' : κ} {o : ο} {l : List (κ × ο)}

/-- The loop of `find`. -/
def findNode (k : κ) : List (κ × ο) → Option ο
  | [] => none
  | (key, obj) :: l => if key = k then some obj else findNode k l

/-- `delete` unlinks the first node with the key. -/
def unlink (k : κ) : List (κ × ο) → Option ο × List (κ × ο)
  | [] => (none, [])
  | (key, obj) :: l =>
    if key = k then (some obj, l) else ((unlink k l).1, (key, obj) :: (unlink k l).2)

/-- A node that is in front already stays there. -/
def findMtf (k : κ) (l : List (κ × ο)) : Option ο × List (κ × ο) :=
  match unlink k l with
  | (none, _) => (none, l)
  | (some obj, l') => (some obj, (k, obj) :: l')

/-- `find_mtf` exists for integers only. -/
inductive Call (mtf : Bool) (κ ο : Type) where
  | insert (k : κ) (o : ο)
  | find (k : κ)
  | delete (k : κ)
  | findMtf (h : mtf = true) (k : κ)

variable {mtf : Bool}

def Call.key : Call mtf κ ο → κ
  | .insert k _ | .find k | .delete k | .findMtf _ k => k

def onChain : Call mtf κ ο → List (κ × ο) → Option ο × List (κ × ο)
  | .insert k o, l => (none, (k, o) :: l)
  | .find k, l => (findNode k l, l)
  | .delete k, l => unlink k l
  | .findMtf _ k, l => findMtf k l

def onTable (size : Int) (table : Int → List (κ × ο)) (i : Int) (c : Call mtf κ ο) :
    Option (Option ο × (Int → List (κ × ο))) :=
  if 0 ≤ i ∧ i < size then
    let (r, l) := onChain c (table i)
    some (r, update table i l)
  else none

/-- The results of a sequence of calls. -/
def results {σ : Type} (exec : σ → Call mtf κ ο → Option (Option ο × σ)) :
    σ → List (Call mtf κ ο) → Option (List (Option ο) × σ)
  | t, [] => some ([], t)
  | t, c :: cs => do
    let (r, t) ← exec t c
    let (rs, t) ← results exec t cs
    some (r :: rs, t)

/-! ## Stacks -/

/-- The objects of a key, the one inserted last in front. -/
def stack (k : κ) (l : List (κ × ο)) : List ο := (l.filter fun e => decide (e.1 = k)).map Prod.snd

def onStack : Call mtf κ ο → List ο → Option ο × List ο
  | .insert _ o, l => (none, o :: l)
  | .find _, l | .findMtf _ _, l => (l.head?, l)
  | .delete _, l => (l.head?, l.tail)

/-- The results of a sequence of calls on the stacks `S`. -/
def onStacks : (κ → List ο) → List (Call mtf κ ο) → List (Option ο)
  | _, [] => []
  | S, c :: cs => (onStack c (S c.key)).1 :: onStacks (update S c.key (onStack c (S c.key)).2) cs

theorem stack_cons_self : stack k ((k, o) :: l) = o :: stack k l := by simp [stack]

theorem stack_cons_ne (h : k' ≠ k) : stack k ((k', o) :: l) = stack k l := by simp [stack, h]

theorem findNode_eq : findNode k l = (stack k l).head? := by
  induction l with
  | nil => rfl
  | cons e l ih =>
    obtain ⟨key, obj⟩ := e
    by_cases h : key = k
    · rw [findNode, if_pos h, h, stack_cons_self, head?_cons]
    · rw [findNode, if_neg h, ih, stack_cons_ne h]

theorem unlink_ok (k : κ) (l : List (κ × ο)) : (unlink k l).1 = (stack k l).head? ∧
    stack k (unlink k l).2 = (stack k l).tail ∧ ∀ k' ≠ k, stack k' (unlink k l).2 = stack k' l := by
  induction l with
  | nil => exact ⟨rfl, rfl, fun _ _ => rfl⟩
  | cons e l ih =>
    obtain ⟨key, obj⟩ := e
    by_cases h : key = k
    · subst h
      rw [unlink, if_pos rfl, stack_cons_self]
      exact ⟨rfl, rfl, fun k' hk => (stack_cons_ne hk.symm).symm⟩
    · rw [unlink, if_neg h, stack_cons_ne h, stack_cons_ne h]
      refine ⟨ih.1, ih.2.1, fun k' hk => ?_⟩
      by_cases hkey : key = k'
      · rw [hkey, stack_cons_self, stack_cons_self, ih.2.2 k' hk]
      · rw [stack_cons_ne hkey, stack_cons_ne hkey, ih.2.2 k' hk]

theorem findMtf_ok (k : κ) (l : List (κ × ο)) :
    (findMtf k l).1 = (stack k l).head? ∧ ∀ k', stack k' (findMtf k l).2 = stack k' l := by
  obtain ⟨hobj, hself, hother⟩ := unlink_ok k l
  rw [findMtf]
  split
  next h =>
    rw [h] at hobj
    exact ⟨hobj, fun _ => rfl⟩
  next obj l' h =>
    rw [h] at hobj hself hother
    refine ⟨hobj, fun k' => ?_⟩
    by_cases hk : k' = k
    · subst hk
      rw [stack_cons_self, hself]
      exact cons_head?_tail hobj.symm
    · rw [stack_cons_ne (Ne.symm hk), hother k' hk]

theorem onChain_ok (c : Call mtf κ ο) (l : List (κ × ο)) :
    (onChain c l).1 = (onStack c (stack c.key l)).1 ∧
      stack c.key (onChain c l).2 = (onStack c (stack c.key l)).2 ∧
      ∀ k ≠ c.key, stack k (onChain c l).2 = stack k l := by
  cases c with
  | insert k o => exact ⟨rfl, stack_cons_self, fun k' hk => stack_cons_ne hk.symm⟩
  | find k => exact ⟨findNode_eq, rfl, fun _ _ => rfl⟩
  | delete k => exact unlink_ok k l
  | findMtf h k =>
    obtain ⟨hres, hsame⟩ := findMtf_ok k l
    exact ⟨hres, hsame k, fun k' _ => hsame k'⟩

/-- The stacks in a table with the hash function `h`. -/
def view (h : κ → Int) (table : Int → List (κ × ο)) (k : κ) : List ο := stack k (table (h k))

theorem onTable_ok (h : κ → Int) (table : Int → List (κ × ο)) (c : Call mtf κ ο) {size : Int}
    (hi : 0 ≤ h c.key ∧ h c.key < size) :
    ∃ table', onTable size table (h c.key) c = some ((onStack c (view h table c.key)).1, table') ∧
      view h table' = update (view h table) c.key (onStack c (view h table c.key)).2 := by
  obtain ⟨hres, hself, hother⟩ := onChain_ok c (table (h c.key))
  refine ⟨update table (h c.key) (onChain c (table (h c.key))).2, ?_, funext fun k => ?_⟩
  · rw [onTable, if_pos hi, view, ← hres]
  · by_cases hk : k = c.key
    · rw [hk, view, update_self, update_self, hself, view]
    · rw [update_of_ne hk, view, view]
      by_cases hi : h k = h c.key
      · rw [hi, update_self, hother k hk]
      · rw [update_of_ne hi]

/-- If a call on a table is one on its stacks, so is a sequence of calls. -/
theorem results_ok {σ : Type} {exec : σ → Call mtf κ ο → Option (Option ο × σ)}
    {Shows : σ → (κ → List ο) → Prop} {Valid : κ → Prop}
    (hexec : ∀ {t S} c, Shows t S → Valid c.key → ∃ u,
      exec t c = some ((onStack c (S c.key)).1, u) ∧
        Shows u (update S c.key (onStack c (S c.key)).2))
    {t : σ} {S : κ → List ο} (h : Shows t S) (cs : List (Call mtf κ ο))
    (hcs : ∀ c ∈ cs, Valid c.key) :
    ∃ u S', results exec t cs = some (onStacks S cs, u) ∧ Shows u S' := by
  induction cs generalizing t S with
  | nil => exact ⟨t, S, rfl, h⟩
  | cons c cs ih =>
    obtain ⟨hc, hcs⟩ := forall_mem_cons.1 hcs
    obtain ⟨u, hstep, hu⟩ := hexec c h hc
    obtain ⟨w, S', hrest, hw⟩ := ih hu hcs
    refine ⟨w, S', ?_, hw⟩
    simp only [results, hstep, hrest, onStacks, Option.bind_eq_bind, Option.bind_some]

/-! ## Indices -/

/-- The value of an `int`. -/
def wrap (n : Int) : Int := n.bmod (2 ^ 32)

theorem wrap_eq {n : Int} (h : 0 ≤ n) (h' : n < 2 ^ 31) : wrap n = n :=
  Int.bmod_eq_of_le (by omega) (by omega)

theorem tmod_range {n size : Int} (hsize : 1 ≤ size) (h : 0 ≤ n) :
    0 ≤ n.tmod size ∧ n.tmod size < size :=
  ⟨Int.tmod_nonneg _ h, Int.tmod_lt_of_pos n (by omega)⟩

/-- `rand() % MAXP` -/
def drawn (r : Nat) : Int := (r % MAXP : Nat)

theorem drawn_range (r : Nat) : 0 ≤ drawn r ∧ drawn r < 46337 :=
  ⟨Int.natCast_nonneg _, Int.ofNat_lt.2 (Nat.mod_lt _ (by decide))⟩

theorem MAXP_eq : ((MAXP : Nat) : Int) = 46337 := rfl

/-! ## Integers -/

namespace UnI

structure Table (ο : Type) where
  size : Int
  a : Int
  b : Int
  table : Int → List (Int × ο)

/-- `rand` returns `r1` and `r2`. The program ends if the size is too large. -/
def createHashtable (size : Int) (r1 r2 : Nat) : Option (Table ο) :=
  if size ≥ MAXP then none else some ⟨size, drawn r1, drawn r2, fun _ => []⟩

def universalHash (a b size key : Int) : Int := ((wrap (wrap (a * key) + b)).tmod MAXP).tmod size

def exec (t : Table ο) (c : Call true Int ο) : Option (Option ο × Table ο) :=
  (onTable t.size t.table (universalHash t.a t.b t.size c.key) c).map fun r =>
    (r.1, { t with table := r.2 })

def Valid (key : Int) : Prop := 0 ≤ key ∧ key < MAXP

instance (key : Int) : Decidable (Valid key) := inferInstanceAs (Decidable (_ ∧ _))

/-- A state of a table with the stacks `S`. -/
structure Table.Shows (t : Table ο) (S : Int → List ο) : Prop where
  size : 1 ≤ t.size
  a : 0 ≤ t.a ∧ t.a < 46337
  b : 0 ≤ t.b ∧ t.b < 46337
  view : HashTables.view (universalHash t.a t.b t.size) t.table = S

variable {t : Table ο} {S : Int → List ο}

theorem hash_range {key : Int} (ht : t.Shows S) (hkey : Valid key) :
    0 ≤ universalHash t.a t.b t.size key ∧ universalHash t.a t.b t.size key < t.size := by
  obtain ⟨hsize, ha, hb, -⟩ := ht
  obtain ⟨hkey, hlt⟩ := hkey
  rw [MAXP_eq] at hlt
  have hprod : 0 ≤ t.a * key ∧ t.a * key ≤ 46336 * 46336 :=
    ⟨Int.mul_nonneg ha.1 hkey, Int.mul_le_mul (by omega) (by omega) hkey (by omega)⟩
  refine tmod_range hsize (Int.tmod_nonneg _ ?_)
  rw [wrap_eq hprod.1 (by omega), wrap_eq (by omega) (by omega)]
  omega

theorem exec_ok (c : Call true Int ο) (ht : t.Shows S) (hkey : Valid c.key) :
    ∃ u, exec t c = some ((onStack c (S c.key)).1, u) ∧
      u.Shows (update S c.key (onStack c (S c.key)).2) := by
  obtain ⟨table, htable, hview⟩ := onTable_ok _ t.table c (hash_range ht hkey)
  obtain ⟨hsize, ha, hb, rfl⟩ := ht
  exact ⟨{ t with table }, by rw [exec, htable]; rfl, hsize, ha, hb, hview⟩

/-- `find_mtf` returns what `find` would, and no later call shows whether it has been executed. -/
theorem findMtf_unobservable (size : Int) (hsize : 1 ≤ size ∧ size < MAXP) (r1 r2 : Nat)
    (before : List (Call true Int ο)) (hbefore : ∀ c ∈ before, Valid c.key) (k : Int)
    (hk : Valid k) :
    ∃ t0 rs t r t', createHashtable size r1 r2 = some t0 ∧ results exec t0 before = some (rs, t) ∧
      exec t (.findMtf rfl k) = some (r, t') ∧ exec t (.find k) = some (r, t) ∧
      ∀ later : List (Call true Int ο), (∀ c ∈ later, Valid c.key) →
        ∃ rs u u', results exec t later = some (rs, u) ∧ results exec t' later = some (rs, u') := by
  have hnew : (⟨size, drawn r1, drawn r2, fun _ => []⟩ : Table ο).Shows fun _ => [] :=
    ⟨hsize.1, drawn_range r1, drawn_range r2, rfl⟩
  obtain ⟨t, S, hrun, ht⟩ := results_ok exec_ok hnew before hbefore
  obtain ⟨t', hmtf, ht'⟩ := exec_ok (.findMtf rfl k) ht hk
  have hsame : t'.Shows (update S k (S k)) := ht'
  rw [update_eq_self] at hsame
  refine ⟨_, _, t, _, t', if_neg (not_le.2 hsize.2), hrun, hmtf, ?_, fun later hlater => ?_⟩
  · obtain ⟨u, hfind, -⟩ := exec_ok (.find k) ht hk
    have hu : u = t := by
      simp only [exec, onTable, if_pos (hash_range ht hk), Call.key, onChain, update_eq_self,
        Option.map_some, Option.some.injEq, Prod.mk.injEq] at hfind
      exact hfind.2.symm
    rw [hu] at hfind
    exact hfind
  · obtain ⟨u, -, hu, -⟩ := results_ok exec_ok ht later hlater
    obtain ⟨u', -, hu', -⟩ := results_ok exec_ok hsame later hlater
    exact ⟨_, u, u', hu, hu'⟩

theorem findMtf_unobservable_two : ∃ t0 rs t r t', createHashtable 1 3 5 = some t0 ∧
    results exec t0 [.insert 1 'x', .insert 2 'y', .insert 1 'z'] = some (rs, t) ∧
      exec t (.findMtf rfl 1) = some (r, t') ∧ exec t (.find 1) = some (r, t) := by
  obtain ⟨t0, rs, t, r, t', h0, h, hmtf, hfind, -⟩ := findMtf_unobservable 1 (by decide) 3 5
    [.insert 1 'x', .insert 2 'y', .insert 1 'z'] (by decide) 1 (by decide)
  exact ⟨t0, rs, t, r, t', h0, h, hmtf, hfind⟩

end UnI

/-! ## Strings -/

namespace UnS

variable {rand : Nat → Nat} {key al : List Int} {j pos : Nat} {sum size : Int}

/-- The list of coefficients goes up to the last node, which has none yet; `pos` counts the calls of
`rand`. -/
structure Table (ο : Type) where
  size : Int
  b : Int
  aList : List Int
  pos : Nat
  table : Int → List (List Int × ο)

def createHashtable (rand : Nat → Nat) (size : Int) : Option (Table ο) :=
  if size ≥ MAXP then none else some ⟨size, drawn (rand 0), [], 1, fun _ => []⟩

def addChar (sum a c : Int) : Int := wrap (sum + (wrap (a * c)).tmod MAXP)

/-- The loop of `universalhashfunction`: at the last node of the list a coefficient is drawn. -/
def addChars (rand : Nat → Nat) : (key al : List Int) → (pos : Nat) → (sum : Int) →
    Int × List Int × Nat
  | [], al, pos, sum => (sum, al, pos)
  | c :: key, [], pos, sum =>
    let a := drawn (rand pos)
    let (sum, al, pos) := addChars rand key [] (pos + 1) (addChar sum a c)
    (sum, a :: al, pos)
  | c :: key, a :: al, pos, sum =>
    let (sum, al, pos) := addChars rand key al pos (addChar sum a c)
    (sum, a :: al, pos)

def universalHash (rand : Nat → Nat) (t : Table ο) (key : List Int) : Int × Table ο :=
  let (sum, aList, pos) := addChars rand key t.aList t.pos t.b
  (sum.tmod t.size, { t with aList, pos })

def exec (rand : Nat → Nat) (t : Table ο) (c : Call false (List Int) ο) :
    Option (Option ο × Table ο) :=
  let (i, t) := universalHash rand t c.key
  (onTable t.size t.table i c).map fun r => (r.1, { t with table := r.2 })

/-- The coefficients from number `j` on. -/
def Drawn (rand : Nat → Nat) : Nat → List Int → Nat → Prop
  | j, [], pos => pos = j + 1
  | j, a :: al, pos => a = drawn (rand (j + 1)) ∧ Drawn rand (j + 1) al pos

/-- The sum that the coefficients give, whenever they have been drawn. -/
def total (rand : Nat → Nat) : List Int → Nat → Int → Int
  | [], _, sum => sum
  | c :: key, j, sum => total rand key (j + 1) (addChar sum (drawn (rand (j + 1))) c)

theorem addChars_ok (key : List Int) (sum : Int) (h : Drawn rand j al pos) :
    ∃ al' pos', addChars rand key al pos sum = (total rand key j sum, al', pos') ∧
      Drawn rand j al' pos' := by
  induction key generalizing al j pos sum with
  | nil => exact ⟨al, pos, rfl, h⟩
  | cons c key ih =>
    cases al with
    | nil =>
      obtain rfl : pos = j + 1 := h
      have hlast : Drawn rand (j + 1) [] (j + 1 + 1) := rfl
      obtain ⟨al', pos', hrun, hdrawn⟩ := ih (addChar sum _ c) hlast
      exact ⟨_ :: al', pos', by rw [addChars, hrun]; rfl, rfl, hdrawn⟩
    | cons a al =>
      obtain ⟨rfl, h⟩ := h
      obtain ⟨al', pos', hrun, hdrawn⟩ := ih (addChar sum _ c) h
      exact ⟨_ :: al', pos', by rw [addChars, hrun]; rfl, rfl, hdrawn⟩

/-- The strings of the calls. -/
def Valid (key : List Int) : Prop := key.length ≤ 46000 ∧ ∀ c ∈ key, 1 ≤ c ∧ c ≤ 127

theorem total_nonneg (hkey : ∀ c ∈ key, 1 ≤ c ∧ c ≤ 127) (h0 : 0 ≤ sum)
    (hsum : sum + 46336 * key.length < 2 ^ 31) : 0 ≤ total rand key j sum := by
  induction key generalizing j sum with
  | nil => exact h0
  | cons c key ih =>
    obtain ⟨hc, hkey⟩ := forall_mem_cons.1 hkey
    obtain ⟨ha, hlt⟩ := drawn_range (rand (j + 1))
    have hprod : 0 ≤ drawn (rand (j + 1)) * c ∧ drawn (rand (j + 1)) * c ≤ 46336 * 127 :=
      ⟨Int.mul_nonneg ha (by omega), Int.mul_le_mul (by omega) hc.2 (by omega) (by omega)⟩
    have hterm : 0 ≤ (drawn (rand (j + 1)) * c).tmod 46337 ∧
        (drawn (rand (j + 1)) * c).tmod 46337 < 46337 := tmod_range (by decide) hprod.1
    rw [length_cons] at hsum
    rw [total, addChar, MAXP_eq, wrap_eq hprod.1 (by omega), wrap_eq (by omega) (by omega)]
    exact ih hkey (by omega) (by omega)

/-- The index of a string. -/
def index (rand : Nat → Nat) (size : Int) (key : List Int) : Int :=
  (total rand key 0 (drawn (rand 0))).tmod size

theorem index_range (hsize : 1 ≤ size) (hkey : Valid key) :
    0 ≤ index rand size key ∧ index rand size key < size := by
  obtain ⟨hb, hlt⟩ := drawn_range (rand 0)
  have hlen : ((key.length : Nat) : Int) ≤ 46000 := Int.ofNat_le.2 hkey.1
  exact tmod_range hsize (total_nonneg hkey.2 hb (by omega))

/-- A state of the table with the stacks `S`. -/
structure Table.Shows (rand : Nat → Nat) (size : Int) (t : Table ο) (S : List Int → List ο) :
    Prop where
  size_eq : t.size = size
  b_eq : t.b = drawn (rand 0)
  drawn : Drawn rand 0 t.aList t.pos
  view : HashTables.view (index rand size) t.table = S

variable {t : Table ο} {S : List Int → List ο}

theorem hash_eq (h : t.Shows rand size S) (key : List Int) :
    ∃ t', universalHash rand t key = (index rand size key, t') ∧ t'.Shows rand size S := by
  obtain ⟨al, pos, hrun, hdrawn⟩ := addChars_ok key t.b h.drawn
  refine ⟨{ t with aList := al, pos }, ?_, h.size_eq, h.b_eq, hdrawn, h.view⟩
  rw [universalHash, hrun, h.size_eq, h.b_eq]
  rfl

theorem exec_ok (hsize : 1 ≤ size) (c : Call false (List Int) ο) (h : t.Shows rand size S)
    (hkey : Valid c.key) : ∃ u, exec rand t c = some ((onStack c (S c.key)).1, u) ∧
      u.Shows rand size (update S c.key (onStack c (S c.key)).2) := by
  obtain ⟨t', hhash, rfl, hb, hdrawn, rfl⟩ := hash_eq h c.key
  obtain ⟨table, htable, hview⟩ := onTable_ok _ t'.table c (index_range hsize hkey)
  exact ⟨{ t' with table }, by rw [exec, hhash]; simp only [htable]; rfl, rfl, hb, hdrawn, hview⟩

/-- The calls are those on a stack for each string, no index is outside of the table, and a string
has the same index at all times. -/
theorem follows_stacks (rand : Nat → Nat) (size : Int) (hsize : 1 ≤ size ∧ size < MAXP)
    (calls : List (Call false (List Int) ο)) (hcalls : ∀ c ∈ calls, Valid c.key) :
    ∃ t0 t, createHashtable rand size = some t0 ∧
      results (exec rand) t0 calls = some (onStacks (fun _ => []) calls, t) ∧
      ∀ key, (universalHash rand t key).1 = (universalHash rand t0 key).1 := by
  have hnew : (⟨size, drawn (rand 0), [], 1, fun _ => []⟩ : Table ο).Shows rand size fun _ => [] :=
    ⟨rfl, rfl, rfl, rfl⟩
  obtain ⟨t, S, hrun, ht⟩ := results_ok (exec_ok hsize.1) hnew calls hcalls
  refine ⟨_, t, if_neg (not_le.2 hsize.2), hrun, fun key => ?_⟩
  obtain ⟨_, hkey, -⟩ := hash_eq ht key
  obtain ⟨_, hkey', -⟩ := hash_eq hnew key
  rw [hkey, hkey']

theorem follows_stacks_two : ∃ t0 t : Table Char, createHashtable (· + 7) 3 = some t0 ∧
    results (exec (· + 7)) t0 [.insert [97] 'x', .insert [97, 98] 'y', .find [97]] =
      some ([none, none, some 'x'], t) := by
  obtain ⟨t0, t, h0, h, -⟩ := follows_stacks (· + 7) 3 (by decide)
    [.insert [97] 'x', .insert [97, 98] 'y', .find [97]] (by simp [Valid, Call.key])
  exact ⟨t0, t, h0, h⟩

end UnS

end CLangProject.HashTables

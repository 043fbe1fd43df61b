import CLangProject.Safe

/-!
# The shadow copy stack

`shd_stack.c` keeps a stack in an array. From three quarters of its capacity on, each push copies
four items to an array of twice the size, which takes over when it holds all items.

While a copy exists, `4 * size - copy_size` never grows: a push adds 4 to both terms. It starts
below three times the capacity, so the copy is complete before the array is full (`Valid`).

`pop` asks only whether `copy_size` equals `size`. Both are 0 when a pop empties a stack without a
copy, and NULL takes over.

The size of the copy, `2 * max_size`, is an `int`. The parameter `fits` says which values it can
have: all of them in the argument about the copying, and the ones up to `INT_MAX` in the result
about the stack (`int`).
-/

namespace CLangProject.ShdStack

structure Stack (α : Type) where
  base : Option (Arr α)
  size : Nat
  maxSize : Nat
  copy : Option (Arr α)
  copySize : Nat

/-- Up to `INT_MAX`. -/
def int (n : Nat) : Bool := n < 2 ^ 31

variable {α : Type} (fits : Nat → Bool) (junk : Nat → α)

/-- What memory from `malloc` holds is `junk`. -/
def createStack (size : Nat) : Stack α := ⟨some ⟨size, junk⟩, 0, size, none, 0⟩

def stackEmpty (st : Stack α) : Bool := st.size == 0

def deref : Option (Arr α) → Except Fault (Arr α)
  | some a => .ok a
  | none => .error .undefined

def twice (n : Nat) : Except Fault Nat := if fits (2 * n) then .ok (2 * n) else .error .undefined

/-- The copy takes over. -/
def switch (st : Stack α) : Except Fault (Stack α) := do
  .ok { st with base := st.copy, maxSize := ← twice fits st.maxSize, copy := none, copySize := 0 }

/-- The copy, which is allocated when copying starts. -/
def startCopy (maxSize : Nat) : Option (Arr α) → Except Fault (Arr α)
  | some copy => .ok copy
  | none => do .ok ⟨← twice fits maxSize, junk⟩

/-- The loop of `push`, with `additional_copies` to make. -/
def copyItems (base : Arr α) (size : Nat) : Nat → Arr α → Nat → Except Fault (Arr α × Nat)
  | 0, copy, copySize => .ok (copy, copySize)
  | additionalCopies + 1, copy, copySize =>
    if copySize < size then do
      let copy ← copy.write copySize (← base.read copySize)
      copyItems base size additionalCopies copy (copySize + 1)
    else .ok (copy, copySize)

def push (x : α) (st : Stack α) : Except Fault (Stack α) := do
  let base ← (← deref st.base).write st.size x
  let st := { st with base := some base, size := st.size + 1 }
  if st.copy.isSome ∨ 4 * st.size ≥ 3 * st.maxSize then do
    let copy ← startCopy fits junk st.maxSize st.copy
    let (copy, copySize) ← copyItems base st.size 4 copy st.copySize
    let st := { st with copy := some copy, copySize }
    if st.copySize = st.size then switch fits st else .ok st
  else .ok st

/-- From an empty stack `pop` reads in front of the array. -/
def pop (st : Stack α) : Except Fault (α × Stack α) :=
  match st.size with
  | 0 => .error .undefined
  | size + 1 => do
    let tmpItem ← (← deref st.base).read size
    let st := { st with size }
    if st.copySize = st.size then do .ok (tmpItem, ← switch fits st) else .ok (tmpItem, st)

def topElement (st : Stack α) : Except Fault α :=
  match st.size with
  | 0 => .error .undefined
  | size + 1 => do (← deref st.base).read size

/-! ## The invariant -/

/-- The array holds the items, the last one pushed first. -/
def Stored (b : Arr α) : List α → Prop
  | [] => True
  | x :: l => b.val l.length = x ∧ Stored b l

theorem Stored.congr {b c : Arr α} {l : List α} (h : Stored b l)
    (hbc : ∀ i < l.length, c.val i = b.val i) :
    Stored c l := by
  induction l with
  | nil => trivial
  | cons x l ih =>
    exact ⟨(hbc _ (Nat.lt_succ_self _)).trans h.1, ih h.2 fun i hi => hbc i (Nat.lt_succ_of_lt hi)⟩

/-- The stack holds the items `l`, the last one pushed first; `c` is the copy, or what would be
allocated for it. -/
structure Valid (fits : Nat → Bool) (junk : Nat → α) (st : Stack α) (b c : Arr α)
    (l : List α) : Prop where
  base : st.base = some b
  length : b.length = st.maxSize
  stored : Stored b l
  size : st.size = l.length
  copy : st.copy.getD ⟨2 * st.maxSize, junk⟩ = c
  room : c.length = 2 * st.maxSize
  same : ∀ i < st.copySize, c.val i = b.val i
  time : st.copy = none ∧ st.copySize = 0 ∧ 4 * st.size < 3 * st.maxSize ∨
    st.copy = some c ∧ 0 < st.copySize ∧ st.copySize < st.size ∧
      4 * st.size < st.copySize + 3 * st.maxSize ∧ fits (2 * st.maxSize) = true

variable {fits junk} {st : Stack α} {b c : Arr α} {l : List α} {x : α}

theorem Valid.size_lt (h : Valid fits junk st b c l) : st.size < st.maxSize := by
  rcases h.time with ⟨_, _, _⟩ | ⟨_, _, _, _, _⟩ <;> omega

theorem Valid.topElement (h : Valid fits junk st b c (x :: l)) : topElement st = .ok x := by
  have hlt := h.size_lt
  have hsize : st.size = l.length + 1 := h.size
  rw [ShdStack.topElement, hsize, h.base]
  change b.read l.length = _
  rw [Arr.read_eq (by rw [h.length]; omega), h.stored.1]

theorem copyItems_ok (size n k : Nat) (hk : k ≤ size) (hb : size ≤ b.length) (hc : size ≤ c.length)
    (hsame : ∀ i < k, c.val i = b.val i) :
    ∃ c', copyItems b size n c k = .ok (c', min (k + n) size) ∧ c'.length = c.length ∧
      ∀ i < min (k + n) size, c'.val i = b.val i := by
  induction n generalizing c k with
  | zero =>
    exact ⟨c, by rw [copyItems, Nat.add_zero, min_eq_left hk], rfl, fun i hi => hsame i (by omega)⟩
  | succ n ih =>
    by_cases hlt : k < size
    · obtain ⟨c', hrun, hlen, hsame'⟩ := ih (c := c.set k (b.val k)) (k + 1) hlt hc fun i hi => by
        by_cases hik : i = k
        · rw [hik, Arr.val_set_self]
        · rw [Arr.val_set_ne hik, hsame i (by omega)]
      rw [Nat.add_right_comm] at hrun hsame'
      refine ⟨c', ?_, hlen, hsame'⟩
      rw [copyItems, if_pos hlt, Arr.read_eq (by omega)]
      change (c.write k _ >>= _) = _
      rw [Arr.write_eq (by omega)]
      exact hrun
    · rw [copyItems, if_neg hlt, min_eq_right (by omega), show k = size by omega]
      exact ⟨c, rfl, rfl, fun i hi => hsame i (by omega)⟩

/-- A stack without a copy that is less than three quarters full. -/
theorem valid_alone (hb : st.base = some b) (hlen : b.length = st.maxSize) (hl : Stored b l)
    (hsize : st.size = l.length) (hcopy : st.copy = none) (hk : st.copySize = 0)
    (hroom : 4 * st.size < 3 * st.maxSize) :
    Valid fits junk st b ⟨2 * st.maxSize, junk⟩ l :=
  ⟨hb, hlen, hl, hsize, by rw [hcopy]; rfl, rfl, fun i hi => by omega, .inl ⟨hcopy, hk, hroom⟩⟩

theorem switch_valid (junk : Nat → α) (st : Stack α) (hfit : fits (2 * st.maxSize) = true)
    (hcopy : st.copy = some c) (hlen : c.length = 2 * st.maxSize) (hl : Stored c l)
    (hsize : st.size = l.length) (hroom : 4 * st.size < 6 * st.maxSize) :
    ∃ st' c', switch fits st = .ok st' ∧ Valid fits junk st' c c' l := by
  refine ⟨⟨st.copy, st.size, 2 * st.maxSize, none, 0⟩, _, ?_,
    valid_alone hcopy hlen hl hsize rfl rfl ?_⟩
  · rw [switch, twice, if_pos hfit]
    rfl
  · dsimp only
    omega

/-- If a push starts a copy, its size is an `int`. -/
def Fits (fits : Nat → Bool) (st : Stack α) : Prop :=
  st.copy = none → 3 * st.maxSize ≤ 4 * (st.size + 1) → fits (2 * st.maxSize) = true

theorem Valid.startCopy (h : Valid fits junk st b c l) (hfit : fits (2 * st.maxSize) = true) :
    startCopy fits junk st.maxSize st.copy = .ok c := by
  rw [← h.copy]
  cases st.copy with
  | some copy => rfl
  | none =>
    rw [ShdStack.startCopy, twice, if_pos hfit]
    rfl

theorem Valid.push (x : α) (h : Valid fits junk st b c l) (hfits : Fits fits st) :
    ∃ st' b' c', ShdStack.push fits junk x st = .ok st' ∧ Valid fits junk st' b' c' (x :: l) := by
  have hlt := h.size_lt
  have hold : ∀ i < st.size, (b.set st.size x).val i = b.val i :=
    fun i hi => Arr.val_set_ne (by omega)
  have hstored : Stored (b.set st.size x) (x :: l) :=
    ⟨by rw [← h.size]; exact Arr.val_set_self, h.stored.congr fun i hi =>
    hold i (by rw [h.size]; exact hi)⟩
  have hsize : st.size + 1 = (x :: l).length := congrArg (· + 1) h.size
  have hk : st.copySize ≤ st.size := by
    rcases h.time with ⟨_, _, _⟩ | ⟨_, _, _, _, _⟩ <;> omega
  have hroom := h.room
  obtain ⟨c', hrun, hlen, hsame⟩ :=
    copyItems_ok (b := b.set st.size x) (c := c) (st.size + 1) 4 st.copySize
    (by omega) (by change _ ≤ b.length; rw [h.length]; omega) (by omega)
    fun i hi => (h.same i hi).trans (hold i (by omega)).symm
  rw [ShdStack.push, h.base]
  change ∃ st' b' c', (b.write st.size x >>= _) = _ ∧ _
  rw [Arr.write_eq (by rw [h.length]; exact hlt)]
  change ∃ st' b' c', (if st.copy.isSome ∨ 4 * (st.size + 1) ≥ 3 * st.maxSize then
    ShdStack.startCopy fits junk st.maxSize st.copy >>= _ else _) = _ ∧ _
  split
  next hcond =>
    have hfit : fits (2 * st.maxSize) = true := by
      rcases h.time with ⟨hnone, _⟩ | ⟨_, _, _, _, hfit⟩
      · exact hfits hnone (hcond.resolve_left (by simp [hnone]))
      · exact hfit
    rw [h.startCopy hfit]
    change ∃ st' b' c', (copyItems _ _ 4 c _ >>= _) = _ ∧ _
    rw [hrun]
    change ∃ st' b' c', (if min (st.copySize + 4) (st.size + 1) = st.size + 1 then _ else _) = _ ∧ _
    split
    next hall =>
      obtain ⟨st', c'', hswitch, hvalid⟩ := switch_valid (c := c') (l := x :: l) junk { st with
        base := some (b.set st.size x), size := st.size + 1, copy :=
        some c', copySize := _ } hfit rfl (hlen.trans h.room) (hstored.congr fun i hi =>
          hsame i (by rw [hall, hsize]; exact hi)) hsize
        (by dsimp only; omega)
      exact ⟨st', c', c'', hswitch, hvalid⟩
    next hall =>
      refine ⟨_, _, c', rfl, rfl, h.length, hstored, hsize, rfl, hlen.trans h.room, hsame,
        .inr ⟨rfl, ?_⟩⟩
      dsimp only
      rcases h.time with ⟨_, _, _⟩ | ⟨_, _, _, _, _⟩
      · exact ⟨by omega, by omega, by omega, hfit⟩
      · exact ⟨by omega, by omega, by omega, hfit⟩
  next hcond =>
    rw [not_or] at hcond
    have hnone : st.copy = none := by simpa using hcond.1
    rcases h.time with ⟨_, hk, _⟩ | ⟨hsome, _⟩
    · exact ⟨_, _, _, rfl, valid_alone rfl h.length hstored hsize hnone hk (by dsimp only; omega)⟩
    · cases hnone.symm.trans hsome

theorem Valid.pop_eq (h : Valid fits junk st b c (x :: l)) : ShdStack.pop fits st =
    if st.copySize = l.length then switch fits { st with size := l.length } >>= fun st =>
      .ok (x, st)
    else .ok (x, { st with size := l.length }) := by
  have hlt := h.size_lt
  have hsize : st.size = l.length + 1 := h.size
  rw [ShdStack.pop, hsize, h.base]
  change (b.read l.length >>= _) = _
  rw [Arr.read_eq (by rw [h.length]; omega), h.stored.1]
  rfl

theorem Valid.pop (h : Valid fits junk st b c (x :: l)) (hl : l ≠ []) :
    ∃ st' b' c', ShdStack.pop fits st = .ok (x, st') ∧ Valid fits junk st' b' c' l := by
  have hlt := h.size_lt
  have hsize : st.size = l.length + 1 := h.size
  have hpos := List.length_pos_iff.2 hl
  rw [h.pop_eq]
  split
  next heq =>
    rcases h.time with ⟨_, hk, _⟩ | ⟨hcopy, _, _, _, hfit⟩
    · omega
    · obtain ⟨st', c', hswitch, hvalid⟩ :=
        switch_valid junk { st with size := l.length } hfit hcopy h.room
        (h.stored.2.congr fun i hi => h.same i (heq ▸ hi)) rfl (by dsimp only; omega)
      exact ⟨st', c, c', by rw [hswitch]; rfl, hvalid⟩
  next heq =>
    refine ⟨_, b, c, rfl, h.base, h.length, h.stored.2, rfl, h.copy, h.room, h.same, ?_⟩
    dsimp only
    exact h.time.imp (fun h => ⟨h.1, by omega⟩) fun ⟨hcopy, _, _, _, hfit⟩ =>
      ⟨hcopy, by omega, by omega, by omega, hfit⟩

/-- A pop that empties the stack: there is no copy, and NULL takes over. -/
theorem Valid.pop_last (h : Valid fits junk st b c [x]) {y : α} {st' : Stack α}
    (hpop : ShdStack.pop fits st = .ok (y, st')) : st'.base = none := by
  have hsize : st.size = 1 := h.size
  rcases h.time with ⟨hcopy, hk, _⟩ | ⟨_, _, _, _⟩
  · rw [h.pop_eq, List.length_nil, if_pos hk, switch, twice] at hpop
    split_ifs at hpop
    · cases hpop
      exact hcopy
    · cases hpop
  · omega

/-! ## Sequences of calls -/

inductive Op (α : Type) where
  | push (x : α)
  | pop

variable (fits junk) in
/-- The calls find a stack with the items `l` and return what they should; `P` holds before and
after each of them. -/
def Along (P : Stack α → List α → Prop) : Stack α → List α → List (Op α) → Prop
  | st, l, [] => P st l
  | st, l, .push x :: ops => P st l ∧ ∃ st', push fits junk x st = .ok st' ∧
      Along P st' (x :: l) ops
  | st, x :: l, .pop :: ops => P st (x :: l) ∧ ∃ st', pop fits st = .ok (x, st') ∧ Along P st' l ops
  | _, [], .pop :: _ => False

/-- No pop is made on an empty stack or empties it, from `n` items on. -/
def NeverEmptied : Nat → List (Op α) → Prop
  | _, [] => True
  | n, .push _ :: ops => NeverEmptied (n + 1) ops
  | n, .pop :: ops => 2 ≤ n ∧ NeverEmptied (n - 1) ops

variable (fits junk) in
/-- Each pop finds at least two items, and each push that starts a copy finds a `max_size` that can
be doubled. -/
def Careful : Stack α → List (Op α) → Prop
  | _, [] => True
  | st, .push x :: ops => Fits fits st ∧ ∀ st', push fits junk x st = .ok st' → Careful st' ops
  | st, .pop :: ops => 2 ≤ st.size ∧ ∀ x st', pop fits st = .ok (x, st') → Careful st' ops

variable {P : Stack α → List α → Prop} {ops : List (Op α)}

theorem Valid.along (hP : ∀ {st b c l}, Valid fits junk st b c l → P st l)
    (h : Valid fits junk st b c l) (hops : Careful fits junk st ops) :
    Along fits junk P st l ops := by
  induction ops generalizing st b c l with
  | nil => exact hP h
  | cons op ops ih =>
    cases op with
    | push x =>
      obtain ⟨st', b', c', hpush, hvalid⟩ := h.push x hops.1
      exact ⟨hP h, st', hpush, ih hvalid (hops.2 st' hpush)⟩
    | pop =>
      have htwo : 2 ≤ l.length := h.size ▸ hops.1
      rcases l with _ | ⟨x, l⟩
      · exact absurd htwo (by simp)
      · have hl : l ≠ [] := by
          rintro rfl
          exact absurd htwo (by simp)
        obtain ⟨st', b', c', hpop, hvalid⟩ := h.pop hl
        exact ⟨hP h, st', hpop, ih hvalid (hops.2 x st' hpop)⟩

/-- Without a bound for the sizes only the pops matter. -/
theorem Valid.careful (hfits : ∀ n, fits n = true) (h : Valid fits junk st b c l)
    (hops : NeverEmptied l.length ops) :
    Careful fits junk st ops := by
  induction ops generalizing st b c l with
  | nil => trivial
  | cons op ops ih =>
    cases op with
    | push x =>
      refine ⟨fun _ _ => hfits _, fun st' hst => ?_⟩
      obtain ⟨st'', b', c', hpush, hvalid⟩ := h.push x fun _ _ => hfits _
      cases hpush.symm.trans hst
      exact ih hvalid hops
    | pop =>
      refine ⟨h.size ▸ hops.1, fun y st' hst => ?_⟩
      rcases l with _ | ⟨x, _ | ⟨z, l⟩⟩
      · exact absurd hops.1 (by simp)
      · exact absurd hops.1 (by simp)
      · obtain ⟨st'', b', c', hpop, hvalid⟩ := h.pop (List.cons_ne_nil z l)
        cases hpop.symm.trans hst
        exact ih hvalid hops.2

theorem Along.now (h : Along fits junk P st l ops) : P st l := by
  rcases ops with _ | ⟨_ | _, ops⟩
  · exact h
  · exact h.1
  · rcases l with _ | ⟨x, l⟩
    · exact h.elim
    · exact h.1

/-- A push that starts a copy of a size that is no `int` has no result. -/
theorem Valid.fits_of_push {st' : Stack α} (h : Valid fits junk st b c l)
    (hpush : ShdStack.push fits junk x st = .ok st') :
    Fits fits st := by
  intro hnone hfull
  by_contra hfit
  rw [ShdStack.push, h.base] at hpush
  change (b.write st.size x >>= _) = _ at hpush
  rw [Arr.write_eq (by rw [h.length]; exact h.size_lt)] at hpush
  change (if st.copy.isSome ∨ 4 * (st.size + 1) ≥ 3 * st.maxSize then
    ShdStack.startCopy fits junk st.maxSize st.copy >>= _ else _) = _ at hpush
  rw [if_pos (.inr hfull), hnone, ShdStack.startCopy, twice, if_neg hfit] at hpush
  cases hpush

theorem Valid.careful_of_along (hP : ∀ {st l}, P st l → st.base ≠ none)
    (h : Valid fits junk st b c l) (hops : Along fits junk P st l ops) :
    Careful fits junk st ops := by
  induction ops generalizing st b c l with
  | nil => trivial
  | cons op ops ih =>
    cases op with
    | push x =>
      obtain ⟨-, st', hst, hops⟩ := hops
      have hfits := h.fits_of_push hst
      refine ⟨hfits, fun st'' hst'' => ?_⟩
      cases hst.symm.trans hst''
      obtain ⟨_, b', c', hpush, hvalid⟩ := h.push x hfits
      cases hpush.symm.trans hst
      exact ih hvalid hops
    | pop =>
      rcases l with _ | ⟨x, _ | ⟨z, l⟩⟩
      · exact hops.elim
      · obtain ⟨-, st', hst, hops⟩ := hops
        exact absurd (h.pop_last hst) (hP hops.now)
      · obtain ⟨-, st', hst, hops⟩ := hops
        refine ⟨by rw [h.size]; simp, fun y st'' hst'' => ?_⟩
        cases hst.symm.trans hst''
        obtain ⟨_, b', c', hpop, hvalid⟩ := h.pop (List.cons_ne_nil z l)
        cases hpop.symm.trans hst
        exact ih hvalid hops

theorem createStack_valid (fits : Nat → Bool) (junk : Nat → α) {size : Nat} (h : 1 ≤ size) :
    ∃ c, Valid fits junk (createStack junk size) ⟨size, junk⟩ c [] :=
  ⟨_, valid_alone rfl rfl trivial rfl rfl rfl (by change 4 * 0 < 3 * size; omega)⟩

/-- The stack looks like one with the items `l`. -/
def Shows (st : Stack α) (l : List α) : Prop :=
  st.base ≠ none ∧ (stackEmpty st = true ↔ l = []) ∧ ∀ x ∈ l.head?, topElement st = .ok x

/-- From a new stack on, all calls are those of a stack exactly as long as no pop empties it and no
copy is started with a `max_size` of `2 ^ 30` or more. -/
theorem shows_along_iff (junk : Nat → α) (size : Nat) (hsize : 1 ≤ size) (ops : List (Op α)) :
    Along int junk Shows (createStack junk size) [] ops ↔
      Careful int junk (createStack junk size) ops := by
  obtain ⟨c, hnew⟩ := createStack_valid int junk hsize
  refine ⟨hnew.careful_of_along fun h => h.1, hnew.along fun {st b c l} h =>
    ⟨by rw [h.base]; simp, ?_, fun x hx => ?_⟩⟩
  · rw [stackEmpty, h.size, beq_iff_eq, List.length_eq_zero_iff]
  · obtain ⟨l, rfl⟩ := List.head?_eq_some_iff.1 hx
    exact h.topElement

theorem shows_along_two : Along int (fun _ => 0) Shows (createStack (fun _ => 0) 1) []
    [.push 7, .push 8, .pop] := by
  refine (shows_along_iff (fun _ => 0) 1 (by decide) _).2 ⟨fun _ _ => rfl, fun st hst => ?_⟩
  cases hst
  refine ⟨fun _ _ => rfl, fun st hst => ?_⟩
  cases hst
  exact ⟨by decide, fun _ _ _ => trivial⟩

/-- The base array is NULL after a push and a pop. -/
theorem not_shows_emptied : ¬ Along int (fun _ => 0) Shows (createStack (fun _ => 0) 3) []
    [.push 7, .pop] := by
  rintro ⟨-, st, hpush, -, st', hpop, hnull, -⟩
  cases hpush
  cases hpop
  exact hnull rfl

/-- The base has `max_size` slots, and one of them is left for the next push; the copy has twice as
many, is behind the base and equals its beginning. -/
def InTime (st : Stack α) : Prop :=
  ∃ b, st.base = some b ∧ b.length = st.maxSize ∧ st.size < st.maxSize ∧ ∀ c, st.copy = some c →
    c.length = 2 * st.maxSize ∧ st.copySize < st.size ∧ ∀ i < st.copySize, c.val i = b.val i

/-- As long as no pop empties the stack, no call accesses memory outside of its arrays; the sizes
are unbounded. -/
theorem inTime_along (junk : Nat → α) (size : Nat) (hsize : 1 ≤ size) (ops : List (Op α))
    (hops : NeverEmptied 0 ops) :
    Along (fun _ => true) junk (fun st _ => InTime st) (createStack junk size) [] ops := by
  obtain ⟨c, hnew⟩ := createStack_valid (fun _ => true) junk hsize
  refine hnew.along (fun {st b c l} h => ⟨b, h.base, h.length, h.size_lt, fun c' hc' => ?_⟩)
    (hnew.careful (fun _ => rfl) hops)
  rcases h.time with ⟨hcopy, _⟩ | ⟨hcopy, _, hlt, _⟩
  · cases hcopy.symm.trans hc'
  · obtain rfl := Option.some.inj (hcopy.symm.trans hc')
    exact ⟨h.room, hlt, h.same⟩

/-- The sixth push of eight starts a copy, of which the first four items are there afterwards. -/
theorem inTime_along_eight : Along (fun _ => true) (fun _ => 0) (fun st _ => InTime st)
    (createStack (fun _ => 0) 8) [] [.push 1, .push 2, .push 3, .push 4, .push 5, .push 6,
      .pop, .push 7] :=
  inTime_along (fun _ => 0) 8 (by decide) _ (by simp [NeverEmptied])

end CLangProject.ShdStack

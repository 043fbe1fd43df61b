import CLangProject.Safe

/-!
# Perfect hash tables

`perf_hash.c` distributes the keys over `size` buckets, with a factor that is
drawn until the squares of the bucket sizes have a small sum. Every bucket gets
a table of its own, all of them in one array, and a factor for this table; the
factors are drawn anew as long as two keys meet.

A key that does not find its place free marks `table3[i]` where `i` is the number
of the key and not of its bucket, so that the wrong table may be cleared. The
round is repeated anyway, and nothing from an earlier round can mislead
`find`: every entry is a key or `MAXP`, and after the last round every key stands
in its place.

The random numbers are a sequence `rand`, of which `pos` have been used. The
contents of new memory are arbitrary (`fresh`, `junk`).
-/

namespace CLangProject.PerfHash

variable {ο : Type}

def MAXP : Nat := 46337

structure Table (ο : Type) where
  size : Nat
  primaryA : Nat
  secondaryA : Arr Nat
  secondaryS : Arr Nat
  secondaryO : Arr Nat
  keys : Arr Nat
  objs : Arr ο

/-- `((a * x) % MAXP) % n`, where the product has to be an `int`. -/
def hash (a x n : Nat) : Except Fault Nat :=
  if a * x ≤ 2147483647 ∧ n ≠ 0 then .ok ((a * x) % MAXP % n) else .error .undefined

/-! ## Construction -/

section Construction

variable (rand : Nat → Nat) (keys : Arr Nat)

/-- The state of the first loop. -/
structure Primary where
  pos : Nat
  a : Nat
  table1 : Arr Nat
  sum : Nat

def countKey (a i : Nat) (table1 : Arr Nat) : Except Fault (Arr Nat) := do
  let j ← hash a (← keys.read i) keys.length
  table1.write j ((← table1.read j) + 1)

def addSquare (table1 : Arr Nat) (i sum : Nat) : Except Fault Nat := do
  let c ← table1.read i
  .ok (sum + c * c)

/-- One round of the search for the primary factor. -/
def primaryRound (s : Primary) : Except Fault Primary := do
  let a := rand s.pos % MAXP
  let table1 ← forLoop (fun i t => t.write i 0) keys.length 0 s.table1
  let table1 ← forLoop (countKey keys a) keys.length 0 table1
  let sum ← forLoop (addSquare table1) keys.length 0 0
  .ok ⟨s.pos + 1, a, table1, sum⟩

def nextOffset (i : Nat) (table1 table2 : Arr Nat) : Except Fault Nat :=
  if i > 0 then do
    let o ← table2.read (i - 1)
    let n ← table1.read (i - 1)
    .ok (o + n)
  else .ok 0

/-- The sizes of the secondary tables and their offsets. -/
def layout (i : Nat) (t : Arr Nat × Arr Nat) : Except Fault (Arr Nat × Arr Nat) := do
  let c ← t.1.read i
  let table1 ← t.1.write i (2 * c * c)
  let o ← nextOffset i table1 t.2
  let table2 ← t.2.write i o
  .ok (table1, table2)

variable (a : Nat) (table1 table2 : Arr Nat)

/-- The index `k` of a key, by way of its bucket `j`. -/
def slot (table3 : Arr Nat) (key : Nat) : Except Fault Nat := do
  let j ← hash key a keys.length
  let b ← table3.read j
  let n ← table1.read j
  let r ← hash key b n
  let o ← table2.read j
  .ok (r + o)

/-- The state of the second loop. -/
structure Filling where
  pos : Nat
  table3 : Arr Nat
  table4 : Arr Nat
  collision : Bool

def place (i : Nat) (s : Filling) : Except Fault Filling := do
  let key ← keys.read i
  let k ← slot keys a table1 table2 s.table3 key
  let e ← s.table4.read k
  if e = MAXP ∨ e = key then do
    let table4 ← s.table4.write k key
    .ok { s with table4 }
  else do
    let table3 ← s.table3.write i 0
    .ok { s with table3, collision := true }

/-- A bucket that is marked gets another factor and an empty table. -/
def redraw (i : Nat) (s : Filling) : Except Fault Filling := do
  let b ← s.table3.read i
  if b = 0 then do
    let table3 ← s.table3.write i (rand s.pos % MAXP)
    let o ← table2.read i
    let n ← table1.read i
    let table4 ← forLoop (fun k t => t.write k MAXP) n o s.table4
    .ok { s with pos := s.pos + 1, table3, table4 }
  else .ok s

def fillRound (s : Filling) : Except Fault Filling := do
  let s ← forLoop (place keys a table1 table2) keys.length 0 { s with collision := false }
  if s.collision then forLoop (redraw rand table1 table2) keys.length 0 s else .ok s

def drawFactor (i : Nat) (s : Nat × Arr Nat) : Except Fault (Nat × Arr Nat) := do
  let table3 ← s.2.write i (rand s.1 % MAXP)
  .ok (s.1 + 1, table3)

def putObject (table3 : Arr Nat) (objs : Arr ο) (i : Nat) (objects : Arr ο) :
    Except Fault (Arr ο) := do
  let k ← slot keys a table1 table2 table3 (← keys.read i)
  objects.write k (← objs.read i)

/-- `primary_a` gets a value in the first round, which is always made. -/
def createPerfHash (fuel : Nat) (fresh : Nat → Nat → Nat) (junk : Nat → ο) (objs : Arr ο) :
    Except Fault (Table ο) := do
  let p ← whileLoop (fun p => decide (p.sum > 5 * keys.length)) (primaryRound rand keys) fuel
    ⟨0, 0, ⟨keys.length, fresh 1⟩, 100 * keys.length⟩
  let (table1, table2) ← forLoop layout keys.length 0 (p.table1, ⟨keys.length, fresh 2⟩)
  let table4 ← forLoop (fun i t => t.write i MAXP) (2 * p.sum) 0 ⟨2 * p.sum, fresh 4⟩
  let (pos, table3) ← forLoop (drawFactor rand) keys.length 0 (p.pos, ⟨keys.length, fresh 3⟩)
  let s ← whileLoop (·.collision) (fillRound rand keys p.a table1 table2) fuel
    ⟨pos, table3, table4, true⟩
  let objects ← forLoop (putObject keys p.a table1 table2 s.table3 objs) keys.length 0
    ⟨2 * p.sum, junk⟩
  .ok ⟨keys.length, p.a, s.table3, table1, table2, s.table4, objects⟩

end Construction

/-- The result is NULL or an index of `objs`. -/
def find (ht : Table ο) (query : Nat) : Except Fault (Option Nat) := do
  let i ← hash ht.primaryA query ht.size
  let n ← ht.secondaryS.read i
  if n = 0 then .ok none
  else do
    let b ← ht.secondaryA.read i
    let r ← hash b query n
    let o ← ht.secondaryO.read i
    let key ← ht.keys.read (r + o)
    if key = query then .ok (some (r + o)) else .ok none

/-! ## Hashing -/

/-- Distinct keys below `MAXP`, with their objects. -/
structure Input (keys : Arr Nat) (objs : Arr ο) : Prop where
  pos : 0 < keys.length
  length : objs.length = keys.length
  lt : ∀ i, i < keys.length → keys.val i < MAXP
  inj : ∀ i j, i < keys.length → j < keys.length → keys.val i = keys.val j → i = j

variable {a x : Nat}

theorem hash_eq {n : Nat} (ha : a < MAXP) (hx : x < MAXP) (hn : 0 < n) :
    hash a x n = .ok ((a * x) % MAXP % n) := by
  have hprod : a * x ≤ 46336 * 46336 := Nat.mul_le_mul (Nat.le_of_lt_succ ha) (Nat.le_of_lt_succ hx)
  exact if_pos ⟨by omega, by omega⟩

/-- The bucket of a key. -/
def bucket (a size x : Nat) : Nat := (x * a) % MAXP % size

/-- The place of a key among all secondary tables. -/
def spot (a : Nat) (table1 table2 table3 : Arr Nat) (size x : Nat) : Nat :=
  (x * table3.val (bucket a size x)) % MAXP % table1.val (bucket a size x) +
    table2.val (bucket a size x)

theorem bucket_lt {size : Nat} (h : 0 < size) : bucket a size x < size := Nat.mod_lt _ h

/-- The secondary tables lie one behind the other in an array of length `room`,
and those of buckets with keys are not empty. -/
structure Laid (keys : Arr Nat) (a : Nat) (table1 table2 : Arr Nat) (room : Nat) : Prop where
  a_lt : a < MAXP
  length1 : table1.length = keys.length
  length2 : table2.length = keys.length
  fits : ∀ j, j < keys.length → table2.val j + table1.val j ≤ room
  apart : ∀ j j', j < j' → j' < keys.length → table2.val j + table1.val j ≤ table2.val j'
  inhabited : ∀ i, i < keys.length → 0 < table1.val (bucket a keys.length (keys.val i))

/-- Factors for all secondary tables. -/
structure Factors (keys table3 : Arr Nat) : Prop where
  length : table3.length = keys.length
  lt : ∀ j, j < keys.length → table3.val j < MAXP

section Spots

variable {keys table1 table2 table3 : Arr Nat} {a room x : Nat}

theorem Laid.spot_lt (h : Laid keys a table1 table2 room) (table3 : Arr Nat)
    (hpos : 0 < keys.length) (hx : 0 < table1.val (bucket a keys.length x)) :
    spot a table1 table2 table3 keys.length x < room := by
  have hfits := h.fits _ (bucket_lt (a := a) (x := x) hpos)
  have hmod := Nat.mod_lt (x * table3.val (bucket a keys.length x) % MAXP) hx
  unfold spot
  omega

theorem Laid.slot_eq (h : Laid keys a table1 table2 room) (h3 : Factors keys table3)
    (hpos : 0 < keys.length) (hlt : x < MAXP) (hx : 0 < table1.val (bucket a keys.length x)) :
    slot keys a table1 table2 table3 x = .ok (spot a table1 table2 table3 keys.length x) := by
  have hj := bucket_lt (a := a) (x := x) hpos
  unfold slot
  rw [hash_eq hlt h.a_lt hpos]
  change (table3.read (bucket a keys.length x) >>= _) = _
  rw [Arr.read_eq (by rw [h3.length]; exact hj)]
  change (table1.read (bucket a keys.length x) >>= _) = _
  rw [Arr.read_eq (by rw [h.length1]; exact hj)]
  change (hash x _ _ >>= _) = _
  rw [hash_eq hlt (h3.lt _ hj) hx]
  change (table2.read (bucket a keys.length x) >>= _) = _
  rw [Arr.read_eq (by rw [h.length2]; exact hj)]
  rfl

end Spots

/-! ## The primary factor -/

section Primary

variable {rand : Nat → Nat} {keys : Arr Nat}

/-- A round has been made with the factor `a`. -/
structure Counted (keys : Arr Nat) (p : Primary) : Prop where
  a_lt : p.a < MAXP
  length : p.table1.length = keys.length
  inhabited : ∀ i, i < keys.length → 0 < p.table1.val (bucket p.a keys.length (keys.val i))
  sum_eq : p.sum = ∑ j ∈ Finset.range keys.length, p.table1.val j * p.table1.val j

/-- The keys before `i` are counted in their buckets. -/
def CountedUpTo (keys : Arr Nat) (a i : Nat) (t : Arr Nat) : Prop :=
  t.length = keys.length ∧ ∀ l, l < i → 0 < t.val (bucket a keys.length (keys.val l))

variable {t : Arr Nat} {a i : Nat}

theorem CountedUpTo.step (h : CountedUpTo keys a i t) (ha : a < MAXP) (hlt : keys.val i < MAXP)
    (hi : i < keys.length) : Safe (countKey keys a i t) (CountedUpTo keys a (i + 1)) := by
  have hpos : 0 < keys.length := Nat.zero_lt_of_lt hi
  have hj : bucket a keys.length (keys.val i) < t.length := by
    rw [h.1]
    exact bucket_lt hpos
  refine .read_bind hi ?_
  rw [hash_eq ha hlt hpos, Nat.mul_comm]
  refine .read_bind hj (.write hj ⟨h.1, fun l hl => ?_⟩)
  change 0 < (t.set (bucket a keys.length (keys.val i)) _).val _
  by_cases heq : bucket a keys.length (keys.val l) = bucket a keys.length (keys.val i)
  · rw [heq, Arr.val_set_self]
    exact Nat.succ_pos _
  · rw [Arr.val_set_ne heq]
    refine h.2 l (lt_of_le_of_ne (Nat.le_of_lt_succ hl) ?_)
    rintro rfl
    exact heq rfl

theorem addSquare_safe {sum : Nat} (hi : i < t.length)
    (hsum : sum = ∑ j ∈ Finset.range i, t.val j * t.val j) :
    Safe (addSquare t i sum) (· = ∑ j ∈ Finset.range (i + 1), t.val j * t.val j) := by
  subst hsum
  exact .read_bind hi (.ok (Finset.sum_range_succ ..).symm)

theorem primaryRound_safe (hlt : ∀ i, i < keys.length → keys.val i < MAXP)
    (p : Primary) (hp : p.table1.length = keys.length) :
    Safe (primaryRound rand keys p) (Counted keys) := by
  have ha : rand p.pos % MAXP < MAXP := Nat.mod_lt _ (by decide)
  refine (Safe.fill 0 hp).bind fun t ht => ?_
  refine (Safe.forRange (CountedUpTo keys (rand p.pos % MAXP))
    (fun i t hi h => h.step ha (hlt i hi) hi) ⟨ht.1, fun l hl => by omega⟩).bind fun t ht => ?_
  exact (Safe.forRange (fun i sum => sum = ∑ j ∈ Finset.range i, t.val j * t.val j)
    (fun i sum hi h => addSquare_safe (by rw [ht.1]; omega) h) (Finset.sum_range_zero _).symm).bind
      fun sum hsum => .ok ⟨ha, ht.1, ht.2, hsum⟩

theorem primary_safe (fuel : Nat) (table1 : Arr Nat) (hpos : 0 < keys.length)
    (hlt : ∀ i, i < keys.length → keys.val i < MAXP) (h1 : table1.length = keys.length) :
    Safe (whileLoop (fun p => decide (p.sum > 5 * keys.length)) (primaryRound rand keys) fuel
      ⟨0, a, table1, 100 * keys.length⟩) (Counted keys) := by
  refine (Safe.whileLoop (fun p => p.table1.length = keys.length ∧
    (p.sum = 100 * keys.length ∨ Counted keys p)) fuel (fun p _ hp =>
      (primaryRound_safe hlt p hp.1).mono fun p' hp' => ⟨hp'.length, .inr hp'⟩)
    ⟨h1, .inl rfl⟩).mono fun p hp => hp.1.2.resolve_left fun hsum => ?_
  have htest := of_decide_eq_false hp.2
  omega

/-- The sum of the first sizes. -/
def offset (c : Nat → Nat) (i : Nat) : Nat := ∑ j ∈ Finset.range i, 2 * c j * c j

/-- The loop over the buckets has come to `i`. -/
structure LaidUpTo (size : Nat) (c : Nat → Nat) (i : Nat) (t : Arr Nat × Arr Nat) : Prop where
  length1 : t.1.length = size
  length2 : t.2.length = size
  size_eq : ∀ l, l < i → t.1.val l = 2 * c l * c l
  count_eq : ∀ l, i ≤ l → t.1.val l = c l
  offset_eq : ∀ l, l < i → t.2.val l = offset c l

theorem offset_succ (c : Nat → Nat) (i : Nat) : offset c (i + 1) = offset c i + 2 * c i * c i :=
  Finset.sum_range_succ ..

theorem offset_mono (c : Nat → Nat) {j : Nat} (h : i ≤ j) : offset c i ≤ offset c j :=
  Finset.sum_le_sum_of_subset (Finset.range_subset_range.2 h)

theorem LaidUpTo.step {size : Nat} {c : Nat → Nat} {t : Arr Nat × Arr Nat} (h : LaidUpTo size c i t)
    (hi : i < size) : Safe (layout i t) (LaidUpTo size c (i + 1)) := by
  have hi1 : i < t.1.length := by rw [h.length1]; exact hi
  have hi2 : i < t.2.length := by rw [h.length2]; exact hi
  refine .read_bind hi1 (.write_bind hi1 ?_)
  rw [h.count_eq i le_rfl]
  have hoff : Safe (nextOffset i (t.1.set i (2 * c i * c i)) t.2) (· = offset c i) := by
    cases i with
    | zero => exact .ok rfl
    | succ i =>
      rw [nextOffset, if_pos (Nat.succ_pos i)]
      refine .read_bind (by omega) (.read_bind (by rw [Arr.length_set]; omega) (.ok ?_))
      rw [Nat.add_sub_cancel, Arr.val_set_ne (by omega), h.offset_eq i (by omega),
        h.size_eq i (by omega), offset_succ]
  refine hoff.bind fun o ho => .write_bind hi2 (.ok ⟨h.length1, h.length2, fun l hl => ?_,
    fun l hl => ?_, fun l hl => ?_⟩)
  · rcases Nat.lt_succ_iff_lt_or_eq.1 hl with hl | rfl
    · exact (Arr.val_set_ne (by omega)).trans (h.size_eq l hl)
    · exact Arr.val_set_self
  · exact (Arr.val_set_ne (by omega)).trans (h.count_eq l (by omega))
  · rcases Nat.lt_succ_iff_lt_or_eq.1 hl with hl | rfl
    · exact (Arr.val_set_ne (by omega)).trans (h.offset_eq l hl)
    · exact Arr.val_set_self.trans ho

theorem layout_safe {p : Primary} (table2 : Arr Nat) (hp : Counted keys p)
    (h2 : table2.length = keys.length) (hpos : 0 < keys.length) :
    Safe (forLoop layout keys.length 0 (p.table1, table2)) fun t =>
      Laid keys p.a t.1 t.2 (2 * p.sum) := by
  refine (Safe.forRange (LaidUpTo keys.length p.table1.val) (fun i t hi h => h.step hi)
    ⟨hp.length, h2, fun l hl => by omega, fun l _ => rfl, fun l hl => by omega⟩).mono
      fun t ht => ⟨hp.a_lt, ht.length1, ht.length2, fun j hj => ?_, fun j j' hlt hj' => ?_,
        fun i hi => ?_⟩
  · have htotal : offset p.table1.val keys.length = 2 * p.sum := by
      rw [hp.sum_eq, Finset.mul_sum]
      exact Finset.sum_congr rfl fun j _ => Nat.mul_assoc ..
    rw [ht.offset_eq j hj, ht.size_eq j hj, ← offset_succ, ← htotal]
    exact offset_mono _ hj
  · have hj := hlt.trans hj'
    rw [ht.offset_eq j hj, ht.size_eq j hj, ← offset_succ, ht.offset_eq j' hj']
    exact offset_mono _ hlt
  · rw [ht.size_eq _ (bucket_lt hpos)]
    have hc := hp.inhabited i hi
    exact Nat.mul_pos (Nat.mul_pos Nat.two_pos hc) hc

end Primary

/-! ## A round

Which keys a round refuses depends on the state before it alone. A key is refused where another
one stands, and marks the bucket of its own NUMBER, which from then on sends its keys to the start
of its table. -/

section Filling

variable {rand : Nat → Nat} {keys table1 table2 : Arr Nat} {a room : Nat}

theorem Factors.set {table3 : Arr Nat} (h : Factors keys table3) (i : Nat) {b : Nat}
    (hb : b < MAXP) :
    Factors keys (table3.set i b) := by
  refine ⟨h.length, fun j hj => ?_⟩
  by_cases hji : j = i
  · subst hji
    rwa [Arr.val_set_self]
  · rw [Arr.val_set_ne hji]
    exact h.lt j hj

variable {objs : Arr ο} {i : Nat} {s : Filling}

/-- What stands fixed when the secondary tables are filled. -/
structure Plan where
  keys : Arr Nat
  a : Nat
  table1 : Arr Nat
  table2 : Arr Nat
  room : Nat
  lt : ∀ i, i < keys.length → keys.val i < MAXP
  laid : Laid keys a table1 table2 room

namespace Plan

section Refused

variable (P : Plan) (s : Filling) (R : Nat → Prop)

/-- The bucket of the key number `i`. -/
abbrev bucket (i : Nat) : Nat := PerfHash.bucket P.a P.keys.length (P.keys.val i)

/-- The place of the key number `i` in the secondary table of its bucket. -/
abbrev spot (table3 : Arr Nat) (i : Nat) : Nat :=
  PerfHash.spot P.a P.table1 P.table2 table3 P.keys.length (P.keys.val i)

open scoped Classical in
/-- Where the key number `i` is sent if the keys with a number in `R` are refused. -/
noncomputable def goal (i : Nat) : Nat :=
  if P.bucket i < i ∧ R (P.bucket i) then P.table2.val (P.bucket i) else P.spot s.table3 i

/-- When the key number `i` comes, `x` stands at the place `k`: it has been there at the start of
the round, or it is the first key that was sent there. -/
def Stands (i k x : Nat) : Prop :=
  s.table4.val k ≠ MAXP ∧ s.table4.val k = x ∨
    s.table4.val k = MAXP ∧ ∃ l < i, P.goal s R l = k ∧ P.keys.val l = x ∧
      ∀ l' < l, P.goal s R l' ≠ k

/-- Another key stands where the key number `i` is sent. -/
def Refused (i : Nat) : Prop :=
  ∃ x, P.Stands s (fun j => ∃ _ : j < i, Refused j) i (P.goal s (fun j => ∃ _ : j < i, Refused j) i)
    x ∧ x ≠ P.keys.val i
termination_by i

end Refused

variable {P : Plan} {R R' : Nat → Prop} {i k x y l : Nat} {s t : Filling}

theorem spot_def (table3 : Arr Nat) :
    P.spot table3 i = P.keys.val i * table3.val (P.bucket i) % MAXP %
    P.table1.val (P.bucket i) + P.table2.val (P.bucket i) := rfl

theorem goal_congr (h : ∀ j < i, R j ↔ R' j) : P.goal s R i = P.goal s R' i := by
  have hiff : P.bucket i < i ∧ R (P.bucket i) ↔ P.bucket i < i ∧ R' (P.bucket i) :=
    and_congr_right fun hj => h _ hj
  unfold goal
  by_cases hb : P.bucket i < i ∧ R (P.bucket i)
  · rw [if_pos hb, if_pos (hiff.1 hb)]
  · rw [if_neg hb, if_neg (mt hiff.2 hb)]

theorem stands_congr (h : ∀ l < i, P.goal s R l = P.goal s R' l) :
    P.Stands s R i k x ↔ P.Stands s R' i k x := by
  refine or_congr_right (and_congr_right fun _ => exists_congr fun l => and_congr_right fun hl =>
    ?_)
  rw [h l hl]
  refine and_congr_right fun _ => and_congr_right fun _ => forall₂_congr fun l' hl' => ?_
  rw [h l' (hl'.trans hl)]

theorem refused_iff : P.Refused s i ↔
    ∃ x, P.Stands s (P.Refused s) i (P.goal s (P.Refused s) i) x ∧ x ≠ P.keys.val i := by
  have hgoal : ∀ l ≤ i, P.goal s (fun j => ∃ _ : j < i, P.Refused s j) l = P.goal s
      (P.Refused s) l := by
    intro l hl
    refine goal_congr fun j hj => ⟨fun ⟨_, h⟩ => h, fun h => ⟨hj.trans_le hl, h⟩⟩
  rw [Refused, hgoal i le_rfl]
  exact exists_congr fun x => and_congr_left fun _ => stands_congr fun l hl => hgoal l hl.le

theorem stands_succ : P.Stands s R (i + 1) k x ↔ P.Stands s R i k x ∨
    s.table4.val k = MAXP ∧ P.goal s R i = k ∧ P.keys.val i = x ∧ ∀ l < i, P.goal s R l ≠ k := by
  simp only [Stands, Nat.exists_lt_succ_right, and_or_left, or_assoc]

theorem Stands.mono (h : P.Stands s R i k x) (hle : i ≤ l) : P.Stands s R l k x :=
  h.imp_right fun ⟨hfree, n, hn, hfirst⟩ => ⟨hfree, n, hn.trans_le hle, hfirst⟩

theorem Stands.ne_maxp (h : P.Stands s R i k x) (hi : i ≤ P.keys.length) : x ≠ MAXP := by
  rcases h with ⟨hne, rfl⟩ | ⟨-, l, hl, -, rfl, -⟩
  · exact hne
  · exact (P.lt l (hl.trans_le hi)).ne

theorem Stands.unique (h : P.Stands s R i k x) (h' : P.Stands s R i k y) : x = y := by
  rcases h with ⟨hne, rfl⟩ | ⟨hfree, l, -, hl, rfl, hfirst⟩
  · rcases h' with ⟨-, rfl⟩ | ⟨hfree, -⟩
    · rfl
    · exact absurd hfree hne
  · rcases h' with ⟨hne, -⟩ | ⟨-, l', -, hl', rfl, hfirst'⟩
    · exact absurd hfree hne
    · rcases Nat.lt_trichotomy l l' with hlt | rfl | hlt
      · exact absurd hl (hfirst' l hlt)
      · rfl
      · exact absurd hl' (hfirst l' hlt)

theorem exists_stands_iff : (∃ x, P.Stands s R i k x) ↔
    ¬ (s.table4.val k = MAXP ∧ ∀ l < i, P.goal s R l ≠ k) := by
  classical
  constructor
  · rintro ⟨x, ⟨hne, -⟩ | ⟨-, l, hl, hgoal, -⟩⟩ ⟨hfree, hnone⟩
    · exact hne hfree
    · exact hnone l hl hgoal
  · intro h
    by_cases hfree : s.table4.val k = MAXP
    · have hex : ∃ l, l < i ∧ P.goal s R l = k := by
        by_contra hno
        exact h ⟨hfree, fun l hl hgoal => hno ⟨l, hl, hgoal⟩⟩
      obtain ⟨hlt, hgoal⟩ := Nat.find_spec hex
      exact ⟨_, .inr ⟨hfree, Nat.find hex, hlt, hgoal, rfl, fun l' hl' heq =>
        Nat.find_min hex hl' ⟨hl'.trans hlt, heq⟩⟩⟩
    · exact ⟨_, .inl ⟨hfree, rfl⟩⟩

theorem goal_eq_spot (h : ¬ (P.bucket i < i ∧ R (P.bucket i))) : P.goal s R i = P.spot s.table3 i :=
  if_neg h

/-! ### The keys are placed -/

abbrev place (P : Plan) : Nat → Filling → Except Fault Filling :=
  PerfHash.place P.keys P.a P.table1 P.table2

/-- The key number `i` finds its place free, or itself there. -/
def Free (P : Plan) (i : Nat) (t : Filling) : Prop :=
  t.table4.val (P.spot t.table3 i) = MAXP ∨ t.table4.val (P.spot t.table3 i) = P.keys.val i

theorem place_eq (h3 : Factors P.keys t.table3) (h4 : t.table4.length = P.room)
    (hi : i < P.keys.length) :
    (P.Free i t → P.place i t = .ok
      { t with table4 := t.table4.set (P.spot t.table3 i) (P.keys.val i) }) ∧
    (¬ P.Free i t →
      P.place i t = .ok { t with table3 := t.table3.set i 0, collision := true }) := by
  have hpos : 0 < P.keys.length := Nat.zero_lt_of_lt hi
  have hx := P.laid.inhabited i hi
  have hk : P.spot t.table3 i < t.table4.length := by
    rw [h4]
    exact P.laid.spot_lt t.table3 hpos hx
  have hslot := P.laid.slot_eq h3 hpos (P.lt i hi) hx
  constructor
  · intro hfree
    simp only [PerfHash.place, Arr.read_eq hi, hslot, Arr.read_eq hk, Arr.write_eq hk,
      bind, Except.bind]
    exact if_pos hfree
  · intro hfree
    simp only [PerfHash.place, Arr.read_eq hi, hslot, Arr.read_eq hk, Arr.write_eq (h3.length ▸ hi),
      bind, Except.bind]
    exact if_neg hfree

/-- The keys before `i` have been placed or have made their marks. -/
structure Marked (P : Plan) (s : Filling) (i : Nat) (t : Filling) : Prop where
  pos : t.pos = s.pos
  factors : Factors P.keys t.table3
  length : t.table4.length = P.room
  collision : t.collision = true ↔ ∃ l < i, P.Refused s l
  zero : ∀ j < i, P.Refused s j → t.table3.val j = 0
  same : ∀ j, ¬ (j < i ∧ P.Refused s j) → t.table3.val j = s.table3.val j
  stands : ∀ k x, x ≠ MAXP → (t.table4.val k = x ↔ P.Stands s (P.Refused s) i k x)

theorem Marked.spot_eq (h : Marked P s i t) : P.spot t.table3 i = P.goal s (P.Refused s) i := by
  unfold goal
  split
  next hb => rw [spot_def, h.zero _ hb.1 hb.2, Nat.mul_zero, Nat.zero_mod,
    Nat.zero_mod, Nat.zero_add]
  next hb => rw [spot_def, spot_def, h.same _ hb]

theorem Marked.not_free_iff (h : Marked P s i t) (hi : i < P.keys.length) : ¬ P.Free i t ↔
    P.Refused s i := by
  rw [refused_iff, Free, h.spot_eq]
  constructor
  · intro hfree
    obtain ⟨hne, hkey⟩ := not_or.1 hfree
    exact ⟨_, (h.stands _ _ hne).1 rfl, hkey⟩
  · rintro ⟨x, hx, hne⟩
    have hmaxp := hx.ne_maxp hi.le
    rw [(h.stands _ x hmaxp).2 hx]
    exact not_or.2 ⟨hmaxp, hne⟩

/-- A key that is placed stands at its goal. -/
theorem Marked.stands_set (h : Marked P s i t) (hi : i < P.keys.length)
    (hfree : P.Free i t) (k x : Nat) (hx : x ≠ MAXP) :
    (t.table4.set (P.spot t.table3 i) (P.keys.val i)).val k = x ↔
    P.Stands s (P.Refused s) (i + 1) k x := by
  rw [stands_succ, h.spot_eq]
  by_cases hk : k = P.goal s (P.Refused s) i
  · subst hk
    rw [Arr.val_set_self]
    unfold Free at hfree
    rw [h.spot_eq] at hfree
    rcases hfree with hfree | hself
    · have hnone : ¬ ∃ y, P.Stands s (P.Refused s) i (P.goal s (P.Refused s) i) y := by
        rintro ⟨y, hy⟩
        have hmaxp := hy.ne_maxp hi.le
        exact hmaxp (((h.stands _ y hmaxp).2 hy).symm.trans hfree)
      have hfirst := not_not.1 (mt exists_stands_iff.2 hnone)
      constructor
      · rintro rfl
        exact .inr ⟨hfirst.1, rfl, rfl, hfirst.2⟩
      · rintro (hst | ⟨-, -, hkey, -⟩)
        · exact absurd ⟨x, hst⟩ hnone
        · exact hkey
    · constructor
      · rintro rfl
        exact .inl ((h.stands _ _ hx).1 hself)
      · rintro (hst | ⟨-, -, hkey, -⟩)
        · exact hself.symm.trans ((h.stands _ _ hx).2 hst)
        · exact hkey
  · rw [Arr.val_set_ne hk, h.stands k x hx]
    exact (or_iff_left fun ⟨_, hgoal, _⟩ => hk hgoal.symm).symm

theorem Marked.step (h : Marked P s i t) (hi : i < P.keys.length) :
    ∃ t', P.place i t = .ok t' ∧ Marked P s (i + 1) t' := by
  obtain ⟨hput, hmark⟩ := place_eq h.factors h.length hi
  have hiff := h.not_free_iff hi
  by_cases hfree : P.Free i t
  · have hnot : ¬ P.Refused s i := fun hr => hiff.2 hr hfree
    refine ⟨_, hput hfree, h.pos, h.factors, h.length, ?_, fun j hj hr => ?_, fun j hj => ?_,
      h.stands_set hi hfree⟩
    · rw [Nat.exists_lt_succ_right]
      exact h.collision.trans (or_iff_left hnot).symm
    · refine h.zero j (lt_of_le_of_ne (Nat.le_of_lt_succ hj) ?_) hr
      rintro rfl
      exact hnot hr
    · exact h.same j fun ⟨hlt, hr⟩ => hj ⟨Nat.lt_succ_of_lt hlt, hr⟩
  · have hr := hiff.1 hfree
    refine ⟨_, hmark hfree, h.pos, h.factors.set i (by decide), h.length,
      iff_of_true rfl ⟨i, Nat.lt_succ_self i, hr⟩, fun j hj hrj => ?_, fun j hj => ?_,
        fun k x hx => ?_⟩
    · rcases Nat.lt_succ_iff_lt_or_eq.1 hj with hj | rfl
      · exact (Arr.val_set_ne (by omega)).trans (h.zero j hj hrj)
      · exact Arr.val_set_self
    · have hji : j ≠ i := by
        rintro rfl
        exact hj ⟨Nat.lt_succ_self j, hr⟩
      exact (Arr.val_set_ne hji).trans (h.same j fun ⟨hlt, hr⟩ => hj ⟨Nat.lt_succ_of_lt hlt, hr⟩)
    · rw [stands_succ]
      refine (h.stands k x hx).trans (or_iff_left ?_).symm
      rintro ⟨hk, rfl, -, hfirst⟩
      obtain ⟨y, hy, -⟩ := refused_iff.1 hr
      exact exists_stands_iff.1 ⟨y, hy⟩ ⟨hk, hfirst⟩

/-! ### The marked buckets are renewed -/

/-- Between `s` and `t` the bucket `j` has been given a factor and an empty table. -/
def Renewed (P : Plan) (rand : Nat → Nat) (s t : Filling) (j : Nat) : Prop :=
  (∃ p, s.pos ≤ p ∧ p < t.pos ∧ t.table3.val j = rand p % MAXP) ∧
    ∀ k, P.table2.val j ≤ k → k < P.table2.val j + P.table1.val j → t.table4.val k = MAXP

/-- The buckets before `i` with the factor 0 in `s` have been renewed. -/
structure Redrawn (P : Plan) (rand : Nat → Nat) (s : Filling) (i : Nat) (t : Filling) : Prop where
  pos : s.pos ≤ t.pos
  factors : Factors P.keys t.table3
  length : t.table4.length = P.room
  collision : t.collision = s.collision
  drawn : ∀ j < i, s.table3.val j = 0 → P.Renewed rand s t j
  same : ∀ j, (j < i → s.table3.val j ≠ 0) → t.table3.val j = s.table3.val j
  entry : ∀ k, t.table4.val k = MAXP ∨ t.table4.val k = s.table4.val k

theorem clear_ok {t : Arr Nat} {n o : Nat} (hn : o + n ≤ t.length) :
    ∃ t', forLoop (fun k (t : Arr Nat) => t.write k MAXP) n o t = .ok t' ∧ t'.length = t.length ∧
      ∀ k, t'.val k = if o ≤ k ∧ k < o + n then MAXP else t.val k := by
  refine forLoop_ok o t (fun n t' => t'.length = t.length ∧
    ∀ k, t'.val k = if o ≤ k ∧ k < n then MAXP else t.val k) (fun n t' hle hlt ht' => ?_)
    ⟨rfl, fun k => (if_neg (by omega)).symm⟩
  refine ⟨_, Arr.write_eq (by rw [ht'.1]; omega), ht'.1, fun k => ?_⟩
  by_cases hkn : k = n
  · rw [hkn, Arr.val_set_self, if_pos (by omega)]
  · rw [Arr.val_set_ne hkn, ht'.2 k]
    exact if_congr (by omega) rfl rfl

theorem Redrawn.step (h : Redrawn P rand s i t) (hi : i < P.keys.length) :
    ∃ t', redraw rand P.table1 P.table2 i t = .ok t' ∧ Redrawn P rand s (i + 1) t' := by
  have hval : t.table3.val i = s.table3.val i := h.same i fun hlt => (Nat.lt_irrefl i hlt).elim
  have hi3 : i < t.table3.length := by rw [h.factors.length]; exact hi
  by_cases hzero : t.table3.val i = 0
  · obtain ⟨t4, ht4, hlen, hclear⟩ := clear_ok (h.length.symm ▸ P.laid.fits i hi)
    have hmaxp : ∀ k, t.table4.val k = MAXP → t4.val k = MAXP := by
      intro k hk
      rw [hclear, hk, ite_self]
    refine ⟨⟨t.pos + 1, t.table3.set i (rand t.pos % MAXP), t4, t.collision⟩, ?_,
      Nat.le_succ_of_le h.pos, h.factors.set i (Nat.mod_lt _ (by decide)), hlen.trans h.length,
        h.collision, fun j hj hj0 => ?_,
      fun j hj => ?_, fun k => ?_⟩
    · simp only [redraw, Arr.read_eq hi3, if_pos hzero, Arr.write_eq hi3, bind, Except.bind,
        Arr.read_eq (P.laid.length1.symm ▸ hi : i < P.table1.length),
        Arr.read_eq (P.laid.length2.symm ▸ hi : i < P.table2.length), ht4]
    · by_cases hji : j = i
      · subst hji
        exact ⟨⟨t.pos, h.pos, Nat.lt_succ_self _, Arr.val_set_self⟩, fun k h1 h2 =>
          (hclear k).trans (if_pos ⟨h1, h2⟩)⟩
      · obtain ⟨⟨p, hp, hp', hval⟩, hold⟩ := h.drawn j (by omega) hj0
        exact ⟨⟨p, hp, Nat.lt_succ_of_lt hp', (Arr.val_set_ne hji).trans hval⟩, fun k h1 h2 =>
          hmaxp k (hold k h1 h2)⟩
    · have hji : j ≠ i := by
        rintro rfl
        exact hj (Nat.lt_succ_self j) (hval ▸ hzero)
      exact (Arr.val_set_ne hji).trans (h.same j fun hlt => hj (by omega))
    · rcases h.entry k with hk | hk
      · exact .inl (hmaxp k hk)
      · rw [← hk, hclear]
        exact (ite_eq_or_eq _ _ _)
  · refine ⟨t, ?_, h.pos, h.factors, h.length, h.collision, fun j hj hj0 => ?_, fun j hj =>
      h.same j fun hlt =>
      hj (by omega), h.entry⟩
    · simp only [redraw, Arr.read_eq hi3, bind, Except.bind]
      exact if_neg hzero
    · refine h.drawn j (lt_of_le_of_ne (Nat.le_of_lt_succ hj) ?_) hj0
      rintro rfl
      exact hzero (hval.trans hj0)

/-- Factors are drawn in this round, and the one of the bucket `j` is 0 by then: it has been, or
the key NUMBER `j`, of whichever bucket, has been refused. -/
def Marks (P : Plan) (s : Filling) (j : Nat) : Prop :=
  (∃ i < P.keys.length, P.Refused s i) ∧ (s.table3.val j = 0 ∨ P.Refused s j)

/-- What a round does. -/
structure Round (P : Plan) (rand : Nat → Nat) (s t : Filling) : Prop where
  factors : Factors P.keys t.table3
  length : t.table4.length = P.room
  collision : t.collision = true ↔ ∃ i < P.keys.length, P.Refused s i
  drawn : ∀ j < P.keys.length, P.Marks s j → P.Renewed rand s t j
  same : ∀ j < P.keys.length, ¬ P.Marks s j → t.table3.val j = s.table3.val j
  stands : ∀ k, t.table4.val k ≠ MAXP → P.Stands s (P.Refused s) P.keys.length k (t.table4.val k)
  kept : t.collision = false → ∀ k x, P.Stands s (P.Refused s) P.keys.length k x →
      t.table4.val k = x

theorem fillRound_ok (rand : Nat → Nat) (h3 : Factors P.keys s.table3)
    (h4 : s.table4.length = P.room) :
    ∃ t, fillRound rand P.keys P.a P.table1 P.table2 s = .ok t ∧ Round P rand s t := by
  obtain ⟨t, ht, hm⟩ := forLoop_ok (n := P.keys.length) 0 { s with collision := false } (Marked P s)
    (fun i t _ hi h => h.step (by omega))
    ⟨rfl, h3, h4, by simp, fun j hj => by omega, fun j _ => rfl, fun k x hx => by
      simp only [Stands, Nat.not_lt_zero, false_and, exists_false, and_false, or_false]
      exact ⟨fun h => ⟨h ▸ hx, h⟩, And.right⟩⟩
  rw [Nat.zero_add] at hm
  by_cases hc : t.collision = true
  · obtain ⟨t', ht', hr⟩ := forLoop_ok (n := P.keys.length) 0 t (Redrawn P rand t)
      (fun i t _ hi h => h.step (by omega))
      ⟨le_rfl, hm.factors, hm.length, rfl, fun j hj => by omega, fun j _ => rfl, fun k => .inr rfl⟩
    rw [Nat.zero_add] at hr
    refine ⟨t', ?_, hr.factors, hr.length, by rw [hr.collision, hm.collision], fun j hj hmark => ?_,
      fun j hj hmark => ?_, fun k hk => ?_, fun hf => ?_⟩
    · rw [fillRound, ht]
      exact (if_pos hc).trans ht'
    · have hzero : t.table3.val j = 0 := by
        by_cases hrefused : P.Refused s j
        · exact hm.zero j hj hrefused
        · rw [hm.same j fun h => hrefused h.2]
          exact hmark.2.resolve_right hrefused
      obtain ⟨⟨p, hp, hdrawn⟩, hclear⟩ := hr.drawn j hj hzero
      exact ⟨⟨p, hm.pos ▸ hp, hdrawn⟩, hclear⟩
    · have hno := not_or.1 fun h => hmark ⟨hm.collision.1 hc, h⟩
      have hsame := hm.same j fun h => hno.2 h.2
      rw [hr.same j fun _ => hsame ▸ hno.1, hsame]
    · exact (hm.stands k _ hk).1 ((hr.entry k).resolve_left hk).symm
    · rw [hr.collision, hc] at hf
      cases hf
  · have hnone := mt hm.collision.2 hc
    refine ⟨t, ?_, hm.factors, hm.length, hm.collision, fun j hj hmark => (hnone hmark.1).elim,
      fun j hj _ => hm.same j fun h => hnone ⟨j, hj, h.2⟩, fun k hk => (hm.stands k _ hk).1 rfl,
      fun _ k x hx => (hm.stands k x (hx.ne_maxp le_rfl)).2 hx⟩
    rw [fillRound, ht]
    exact if_neg hc

/-! ### From round to round -/

/-- The state between two rounds: what stands in the secondary tables is a key in its place. -/
structure Filled (P : Plan) (s : Filling) : Prop where
  factors : Factors P.keys s.table3
  length : s.table4.length = P.room
  clean : ∀ k < P.room, s.table4.val k ≠ MAXP →
    ∃ i < P.keys.length, P.keys.val i = s.table4.val k ∧ P.spot s.table3 i = k

theorem spot_mem (P : Plan) (hi : i < P.keys.length) (table3 : Arr Nat) :
    P.table2.val (P.bucket i) ≤ P.spot table3 i ∧
      P.spot table3 i < P.table2.val (P.bucket i) + P.table1.val (P.bucket i) := by
  have hmod : P.keys.val i * table3.val (P.bucket i) % MAXP % P.table1.val (P.bucket i) <
      P.table1.val (P.bucket i) := Nat.mod_lt _ (P.laid.inhabited i hi)
  rw [spot_def]
  omega

theorem goal_mem (hi : i < P.keys.length) : P.table2.val (P.bucket i) ≤ P.goal s R i ∧
    P.goal s R i < P.table2.val (P.bucket i) + P.table1.val (P.bucket i) := by
  unfold goal
  split
  · exact ⟨le_rfl, Nat.lt_add_of_pos_right (P.laid.inhabited i hi)⟩
  · exact P.spot_mem hi s.table3

/-- If a key that stands somewhere has not been cleared away, its bucket has kept its factor. -/
theorem Filled.round (h : P.Filled s) (hr : Round P rand s t) : P.Filled t := by
  refine ⟨hr.factors, hr.length, fun k hk hne => ?_⟩
  have hstay : ∀ i < P.keys.length, P.table2.val (P.bucket i) ≤ k ∧
      k < P.table2.val (P.bucket i) + P.table1.val (P.bucket i) → ¬ P.Marks s (P.bucket i) := by
    intro i hi hmem hmark
    exact hne ((hr.drawn _ (bucket_lt (Nat.zero_lt_of_lt hi)) hmark).2 k hmem.1 hmem.2)
  have hspot : ∀ i < P.keys.length, ¬ P.Marks s (P.bucket i) →
      P.spot t.table3 i = P.spot s.table3 i := by
    intro i hi hmark
    rw [spot_def, spot_def, hr.same _ (bucket_lt (Nat.zero_lt_of_lt hi)) hmark]
  rcases hr.stands k hne with ⟨hold, heq⟩ | ⟨-, l, hl, hgoal, hkey, -⟩
  · obtain ⟨i, hi, hkey, rfl⟩ := h.clean k hk hold
    exact ⟨i, hi, hkey.trans heq, hspot i hi (hstay i hi (P.spot_mem hi _))⟩
  · subst hgoal
    have hmark := hstay l hl (goal_mem hl)
    refine ⟨l, hl, hkey, (hspot l hl hmark).trans (goal_eq_spot fun hr => hmark ?_).symm⟩
    exact ⟨⟨_, bucket_lt (Nat.zero_lt_of_lt hl), hr.2⟩, .inr hr.2⟩

/-- If no key is refused, every key stands in its place. -/
theorem stands_of_none (hnone : ∀ i < P.keys.length, ¬ P.Refused s i) (hl : l < P.keys.length) :
    P.Stands s (P.Refused s) P.keys.length (P.spot s.table3 l) (P.keys.val l) := by
  have hgoal : P.goal s (P.Refused s) l = P.spot s.table3 l := goal_eq_spot fun h =>
    hnone _ (bucket_lt (Nat.zero_lt_of_lt hl)) h.2
  obtain ⟨x, hx⟩ := exists_stands_iff.2 fun h => h.2 l (Nat.lt_succ_self l) hgoal
  have hkey : x = P.keys.val l := by
    rcases stands_succ.1 hx with hst | ⟨-, -, hkey, -⟩
    · by_contra hne
      exact hnone l hl (refused_iff.2 ⟨x, hgoal ▸ hst, hne⟩)
    · exact hkey.symm
  exact hkey ▸ hx.mono hl

end Plan

/-! ## The secondary factors -/

/-- The keys stand in their places. -/
def Placed (keys : Arr Nat) (a : Nat) (table1 table2 : Arr Nat) (s : Filling) : Prop :=
  ∀ l, l < keys.length → s.table4.val (spot a table1 table2 s.table3 keys.length (keys.val l)) =
    keys.val l

theorem Plan.Round.placed {P : Plan} {t : Filling} (hr : P.Round rand s t)
    (hc : t.collision = false) :
    Placed P.keys P.a P.table1 P.table2 t := by
  intro l hl
  have hnone : ∀ i < P.keys.length, ¬ P.Refused s i := fun i hi h => by
    rw [hr.collision.2 ⟨i, hi, h⟩] at hc
    cases hc
  have hsame := hr.same (P.bucket l) (bucket_lt (Nat.zero_lt_of_lt hl)) fun ⟨⟨i, hi, h⟩, _⟩ =>
    hnone i hi h
  have hspot : P.spot t.table3 l = P.spot s.table3 l := by rw [Plan.spot_def, Plan.spot_def, hsame]
  change t.table4.val (P.spot t.table3 l) = P.keys.val l
  rw [hspot]
  exact hr.kept hc _ _ (Plan.stands_of_none hnone hl)

/-- When no key has met another one, every key stands in its place. -/
theorem Plan.filling_safe (P : Plan) (fuel : Nat) (h : P.Filled s) (hc : s.collision = true) :
    Safe (whileLoop (·.collision) (fillRound rand P.keys P.a P.table1 P.table2) fuel s) fun s =>
      P.Filled s ∧ Placed P.keys P.a P.table1 P.table2 s := by
  refine (Safe.whileLoop (fun s => P.Filled s ∧
    (s.collision = false → Placed P.keys P.a P.table1 P.table2 s)) fuel (fun s _ hs => ?_)
      ⟨h, fun hf => ?_⟩).mono fun s hs => ⟨hs.1.1, hs.1.2 hs.2⟩
  · obtain ⟨t, ht, hr⟩ := P.fillRound_ok rand hs.1.factors hs.1.length
    exact .inr ⟨t, ht, hs.1.round hr, hr.placed⟩
  · rw [hc] at hf
    cases hf

/-- Two keys have different places. -/
theorem Placed.spot_injective {j : Nat} (hin : Input keys objs)
    (h : Placed keys a table1 table2 s) (hi : i < keys.length) (hj : j < keys.length)
    (heq : spot a table1 table2 s.table3 keys.length (keys.val i) = spot a table1 table2 s.table3
      keys.length (keys.val j)) :
    i = j := by
  refine hin.inj i j hi hj ?_
  rw [← h i hi, ← h j hj, heq]

theorem objects_safe (t : Arr ο) (hin : Input keys objs) (hl : Laid keys a table1 table2 room)
    (hf : Factors keys s.table3) (h : Placed keys a table1 table2 s) (ht : t.length = room) :
    Safe (forLoop (putObject keys a table1 table2 s.table3 objs) keys.length 0 t) fun t =>
      t.length = room ∧ ∀ i, i < keys.length →
        t.val (spot a table1 table2 s.table3 keys.length (keys.val i)) = objs.val i := by
  refine Safe.forRange (fun n (t : Arr ο) => t.length = room ∧ ∀ i, i < n →
    t.val (spot a table1 table2 s.table3 keys.length (keys.val i)) = objs.val i)
    (fun n t hn ht => ?_) ⟨ht, fun i hi => absurd hi (Nat.not_lt_zero i)⟩
  have hx := hl.inhabited n hn
  refine .read_bind hn ?_
  rw [hl.slot_eq hf hin.pos (hin.lt n hn) hx]
  refine .read_bind (by rw [hin.length]; exact hn)
    (.write (by rw [ht.1]; exact hl.spot_lt s.table3 hin.pos hx) ⟨ht.1, fun i hi => ?_⟩)
  by_cases hin' : i = n
  · subst hin'
    exact Arr.val_set_self
  · rw [Arr.val_set_ne fun heq => hin' (h.spot_injective hin (by omega) hn heq)]
    exact ht.2 i (by omega)

end Filling

/-! ## Queries -/

/-- What `create_perf_hash` returns. -/
structure Perfect (keys : Arr Nat) (objs : Arr ο) (ht : Table ο) : Prop where
  size : ht.size = keys.length
  laid : Laid keys ht.primaryA ht.secondaryS ht.secondaryO ht.keys.length
  factors : Factors keys ht.secondaryA
  entries : ∀ k, k < ht.keys.length → ht.keys.val k = MAXP ∨
    ∃ i, i < keys.length ∧ ht.keys.val k = keys.val i
  placed : ∀ i, i < keys.length → ht.keys.val (spot ht.primaryA ht.secondaryS ht.secondaryO
    ht.secondaryA keys.length (keys.val i)) = keys.val i
  length : ht.objs.length = ht.keys.length
  objects : ∀ i, i < keys.length → ht.objs.val (spot ht.primaryA ht.secondaryS ht.secondaryO
    ht.secondaryA keys.length (keys.val i)) = objs.val i

theorem drawFactors_safe {rand : Nat → Nat} (keys : Arr Nat) (s : Nat × Arr Nat)
    (hs : s.2.length = keys.length) :
    Safe (forLoop (drawFactor rand) keys.length 0 s) fun s => Factors keys s.2 := by
  refine (Safe.forRange (fun i (s : Nat × Arr Nat) => s.2.length = keys.length ∧
    ∀ j, j < i → s.2.val j < MAXP) (fun i s hi hs => ?_) ⟨hs, fun j hj => by omega⟩).mono
      fun s hs => ⟨hs.1, hs.2⟩
  refine .write_bind (by omega) (.ok ⟨hs.1, fun j hj => ?_⟩)
  change (s.2.set i _).val j < MAXP
  by_cases hji : j = i
  · subst hji
    rw [Arr.val_set_self]
    exact Nat.mod_lt _ (by decide)
  · rw [Arr.val_set_ne hji]
    exact hs.2 j (by omega)

theorem createPerfHash_safe {keys : Arr Nat} {objs : Arr ο} (hin : Input keys objs)
    (rand : Nat → Nat) (fuel : Nat) (fresh : Nat → Nat → Nat) (junk : Nat → ο) :
    Safe (createPerfHash rand keys fuel fresh junk objs) (Perfect keys objs) := by
  unfold createPerfHash
  refine (primary_safe fuel ⟨keys.length, fresh 1⟩ hin.pos hin.lt rfl).bind fun p hp => ?_
  refine (layout_safe ⟨keys.length, fresh 2⟩ hp rfl hin.pos).bind fun (table1, table2) hl => ?_
  refine (Safe.fill (a := ⟨2 * p.sum, fresh 4⟩) MAXP rfl).bind fun table4 h4 => ?_
  refine (drawFactors_safe keys (p.pos, ⟨keys.length, fresh 3⟩) rfl).bind fun (pos, table3) h3 => ?_
  let P : Plan := ⟨keys, p.a, table1, table2, 2 * p.sum, hin.lt, hl⟩
  have hstart : P.Filled ⟨pos, table3, table4, true⟩ :=
    ⟨h3, h4.1, fun k hk hne => absurd (h4.2 k hk) hne⟩
  refine (P.filling_safe fuel hstart rfl).bind fun s hs => ?_
  refine (objects_safe ⟨2 * p.sum, junk⟩ hin hl hs.1.factors hs.2 rfl).bind fun objects ho => ?_
  have hlen : s.table4.length = 2 * p.sum := hs.1.length
  refine .ok ⟨rfl, by rw [hlen]; exact hl, hs.1.factors, fun k hk => ?_, hs.2,
    ho.1.trans hlen.symm, ho.2⟩
  by_cases hne : s.table4.val k = MAXP
  · exact .inl hne
  · obtain ⟨i, hi, hkey, -⟩ := hs.1.clean k (hlen ▸ hk : k < 2 * p.sum) hne
    exact .inr ⟨i, hi, hkey.symm⟩

section Find

variable {keys : Arr Nat} {objs : Arr ο} {ht : Table ο} {q : Nat}

section

variable (h : Perfect keys objs ht) (hpos : 0 < keys.length) (hq : q < MAXP)
include h hpos hq

theorem Perfect.find_bucket : find ht q = (do
      let n ← ht.secondaryS.read (bucket ht.primaryA keys.length q)
      if n = 0 then .ok none
      else do
        let b ← ht.secondaryA.read (bucket ht.primaryA keys.length q)
        let r ← hash b q n
        let o ← ht.secondaryO.read (bucket ht.primaryA keys.length q)
        let key ← ht.keys.read (r + o)
        if key = q then .ok (some (r + o)) else .ok none) := by
  rw [find, h.size, hash_eq h.laid.a_lt hq hpos, Nat.mul_comm]
  rfl

theorem Perfect.find_empty (hb : ht.secondaryS.val (bucket ht.primaryA keys.length q) = 0) :
    find ht q = .ok none := by
  rw [h.find_bucket hpos hq, Arr.read_eq (by rw [h.laid.length1]; exact bucket_lt hpos), hb]
  rfl

/-- A query in a bucket that has a table looks at one place in it. -/
theorem Perfect.find_eq (hb : 0 < ht.secondaryS.val (bucket ht.primaryA keys.length q)) :
    find ht q = .ok (if ht.keys.val (spot ht.primaryA ht.secondaryS ht.secondaryO ht.secondaryA
      keys.length q) = q then some (spot ht.primaryA ht.secondaryS ht.secondaryO ht.secondaryA
        keys.length q) else none) := by
  have hj := bucket_lt (a := ht.primaryA) (x := q) hpos
  rw [h.find_bucket hpos hq, Arr.read_eq (by rw [h.laid.length1]; exact hj)]
  change (if _ = 0 then _ else _) = _
  rw [if_neg (Nat.pos_iff_ne_zero.1 hb), Arr.read_eq (by rw [h.factors.length]; exact hj)]
  change (hash _ q _ >>= _) = _
  rw [hash_eq (h.factors.lt _ hj) hq hb, Nat.mul_comm]
  change (ht.secondaryO.read _ >>= _) = _
  rw [Arr.read_eq (by rw [h.laid.length2]; exact hj)]
  change (ht.keys.read (spot ht.primaryA ht.secondaryS ht.secondaryO ht.secondaryA
    keys.length q) >>= _) = _
  rw [Arr.read_eq (h.laid.spot_lt ht.secondaryA hpos hb)]
  exact (apply_ite Except.ok _ _ _).symm

end

end Find

/-- If `create_perf_hash` returns, then `find` returns a pointer to the object
of each key, and NULL for everything else. All accesses to arrays are in
bounds. -/
theorem createPerfHash_find (keys : Arr Nat) (objs : Arr ο) (hin : Input keys objs)
    (rand : Nat → Nat) (fuel : Nat) (fresh : Nat → Nat → Nat) (junk : Nat → ο) :
    createPerfHash rand keys fuel fresh junk objs ≠ .error .undefined ∧
      ∀ ht, createPerfHash rand keys fuel fresh junk objs = .ok ht →
        (∀ i, i < keys.length → ∃ j, find ht (keys.val i) = .ok (some j) ∧
          ht.objs.read j = .ok (objs.val i)) ∧
        ∀ q, q < MAXP → (∀ i, i < keys.length → keys.val i ≠ q) → find ht q = .ok none := by
  have hsafe := createPerfHash_safe hin rand fuel fresh junk
  refine ⟨hsafe.ne_undefined, fun ht hret => ?_⟩
  rw [hret] at hsafe
  have h := hsafe.ok_inv
  refine ⟨fun i hi => ?_, fun q hq habs => ?_⟩
  · have hb := h.laid.inhabited i hi
    refine ⟨_, by rw [h.find_eq hin.pos (hin.lt i hi) hb, if_pos (h.placed i hi)], ?_⟩
    rw [Arr.read_eq (by rw [h.length]; exact h.laid.spot_lt ht.secondaryA hin.pos hb),
      h.objects i hi]
  · rcases Nat.eq_zero_or_pos (ht.secondaryS.val (bucket ht.primaryA keys.length q)) with hb | hb
    · exact h.find_empty hin.pos hq hb
    · rw [h.find_eq hin.pos hq hb, if_neg fun heq => ?_]
      rcases h.entries _ (h.laid.spot_lt ht.secondaryA hin.pos hb) with he | ⟨i, hi, he⟩
      · exact absurd (heq.symm.trans he) hq.ne
      · exact habs i hi (he.symm.trans heq)

def threeKeys : Arr Nat := ⟨3, fun i => 3 * i + 1⟩

def threeObjects : Arr Nat := ⟨3, fun i => i + 100⟩

theorem input_threeKeys : Input threeKeys threeObjects where
  pos := by decide
  length := rfl
  lt i hi := by
    change 3 * i + 1 < 46337
    change i < 3 at hi
    omega
  inj i j _ _ h := by
    change 3 * i + 1 = 3 * j + 1 at h
    omega

/-- All three keys are in one bucket, and meet in its table in the first round. -/
theorem find_threeKeys : ∃ ht, createPerfHash (fun n => if n < 2 then 0 else n) threeKeys 5
    (fun _ _ => 7) (fun _ => 0) threeObjects = .ok ht ∧
      (∃ j, find ht 4 = .ok (some j) ∧ ht.objs.read j = .ok 101) ∧ find ht 5 = .ok none := by
  have hret : (createPerfHash (fun n => if n < 2 then 0 else n) threeKeys 5
      (fun _ _ => 7) (fun _ => 0) threeObjects).toOption.isSome := by decide +kernel
  cases hres : createPerfHash (fun n => if n < 2 then 0 else n) threeKeys 5
      (fun _ _ => 7) (fun _ => 0) threeObjects with
  | error e =>
    rw [hres] at hret
    cases hret
  | ok ht =>
    obtain ⟨-, hfind⟩ := createPerfHash_find threeKeys threeObjects input_threeKeys
      (fun n => if n < 2 then 0 else n) 5 (fun _ _ => 7) (fun _ => 0)
    obtain ⟨hkey, habs⟩ := hfind ht hres
    refine ⟨ht, rfl, hkey 1 (by decide), habs 5 (by decide) fun i _ h => ?_⟩
    change 3 * i + 1 = 5 at h
    omega

/-! ## What a round repairs -/

namespace Plan

variable (P : Plan) (rand : Nat → Nat) (s : Filling)

/-- Two different keys of the bucket `j` have the same place. -/
def Meets (j : Nat) : Prop :=
  ∃ i < P.keys.length, ∃ l < P.keys.length, P.keys.val i ≠ P.keys.val l ∧
    P.bucket i = j ∧ P.bucket l = j ∧ P.spot s.table3 i = P.spot s.table3 l

/-- The round renews the buckets in which keys meet, and the others keep their factors. If no keys
meet any more under the new factors, the loop ends. -/
def Repairs : Prop :=
  ∃ t, fillRound rand P.keys P.a P.table1 P.table2 s = .ok t ∧
    (∀ j < P.keys.length, (P.Meets s j → P.Renewed rand s t j) ∧
      (¬ P.Meets s j → t.table3.val j = s.table3.val j)) ∧
    ((∀ j < P.keys.length, ¬ P.Meets t j) → ∃ fuel u,
      whileLoop (·.collision) (fillRound rand P.keys P.a P.table1 P.table2) fuel t = .ok u)

variable {P rand s} {i l : Nat}

/-- The secondary tables do not overlap. -/
theorem bucket_eq_of_spot (hi : i < P.keys.length) (hl : l < P.keys.length)
    (h : P.spot s.table3 i = P.spot s.table3 l) : P.bucket i = P.bucket l := by
  have hpos := Nat.zero_lt_of_lt hi
  have h1 := P.spot_mem hi s.table3
  have h2 := P.spot_mem hl s.table3
  rcases Nat.lt_trichotomy (P.bucket i) (P.bucket l) with hlt | heq | hlt
  · have := P.laid.apart _ _ hlt (bucket_lt hpos)
    omega
  · exact heq
  · have := P.laid.apart _ _ hlt (bucket_lt hpos)
    omega

theorem not_refused_of_not_meets (h : P.Filled s) (hmeet : ∀ j < P.keys.length, ¬ P.Meets s j)
    (hi : i < P.keys.length) : ¬ P.Refused s i := by
  induction i using Nat.strong_induction_on with
  | _ i ih =>
    have hpos := Nat.zero_lt_of_lt hi
    have hgoal : ∀ l ≤ i, P.goal s (P.Refused s) l = P.spot s.table3 l := fun l hl =>
      goal_eq_spot fun hb => ih _ (hb.1.trans_le hl) (bucket_lt hpos) hb.2
    rw [refused_iff, hgoal i le_rfl]
    -- the key that stands there has the same place and meets this one
    have hno : ∀ l < P.keys.length, P.spot s.table3 l = P.spot s.table3 i →
        P.keys.val l = P.keys.val i := by
      intro l hl heq
      by_contra hne
      exact hmeet (P.bucket i) (bucket_lt hpos) ⟨l, hl, i, hi, hne, bucket_eq_of_spot hl hi heq,
        rfl, heq⟩
    rintro ⟨x, ⟨hold, heq⟩ | ⟨-, l, hl, hgl, hkey, -⟩, hne⟩
    · obtain ⟨l, hl, hkey, hspot⟩ :=
        h.clean _ (P.laid.spot_lt s.table3 hpos (P.laid.inhabited i hi)) hold
      exact hne (heq.symm.trans (hkey.symm.trans (hno l hl hspot)))
    · exact hne (hkey.symm.trans (hno l (hl.trans hi) ((hgoal l hl.le).symm.trans hgl)))

theorem exists_refused_of_meets {j : Nat} (h : P.Meets s j) :
    ∃ i < P.keys.length, P.Refused s i := by
  obtain ⟨i, hi, l, hl, hne, -, -, heq⟩ := h
  by_contra hno
  have hnone : ∀ i < P.keys.length, ¬ P.Refused s i := fun i hi hr => hno ⟨i, hi, hr⟩
  exact hne ((stands_of_none hnone hi).unique (heq ▸ stands_of_none hnone hl))

theorem ends_of_not_meets (h : P.Filled s) (hmeet : ∀ j < P.keys.length, ¬ P.Meets s j) :
    ∃ fuel u, whileLoop (·.collision) (fillRound rand P.keys P.a P.table1 P.table2) fuel
      s = .ok u := by
  obtain ⟨t, ht, hr⟩ := fillRound_ok rand h.factors h.length
  have hc : t.collision = false := by
    by_contra hc
    obtain ⟨i, hi, href⟩ := hr.collision.1 (Bool.not_eq_false _ ▸ hc)
    exact not_refused_of_not_meets h hmeet hi href
  refine ⟨1, if s.collision then t else s, ?_⟩
  rw [whileLoop]
  split
  next =>
    rw [ht]
    simp [bind, Except.bind, whileLoop, hc]
  next => rfl

theorem marks_iff (h : P.Filled s) : (∀ j < P.keys.length, P.Meets s j ↔ P.Marks s j) ↔
    (∀ j < P.keys.length, ¬ P.Meets s j) ∨
      ∀ j < P.keys.length, P.Meets s j ↔ s.table3.val j = 0 ∨ P.Refused s j := by
  by_cases hmeet : ∀ j < P.keys.length, ¬ P.Meets s j
  · refine iff_of_true (fun j hj => iff_of_false (hmeet j hj) fun ⟨⟨i, hi, hr⟩, _⟩ =>
      ?_) (.inl hmeet)
    exact not_refused_of_not_meets h hmeet hi hr
  · rw [or_iff_right hmeet]
    simp only [not_forall, not_not] at hmeet
    obtain ⟨j, -, hj⟩ := hmeet
    have hex := exists_refused_of_meets hj
    exact forall₂_congr fun j _ => iff_congr Iff.rfl (and_iff_right hex)

/-- Three keys in the bucket 0. -/
def threeInOne : Plan where
  keys := threeKeys
  a := 0
  table1 := ⟨3, fun j => if j = 0 then 18 else 0⟩
  table2 := ⟨3, fun j => if j = 0 then 0 else 18⟩
  room := 18
  lt := by decide
  laid := ⟨by decide, rfl, rfl, by decide, fun j j' hlt hj' => by
    change j' < 3 at hj'
    interval_cases j' <;> interval_cases j <;> decide, by decide⟩

/-- By the factor 18 they all have the place 0. -/
def allMeet : Filling := ⟨0, ⟨3, fun _ => 18⟩, ⟨18, fun _ => MAXP⟩, true⟩

end Plan

end CLangProject.PerfHash

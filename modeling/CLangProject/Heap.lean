import CLangProject.BinaryHeap

/-!
# Heap

`heap.c` keeps the elements of a heap in an array that grows by steps of 128. An access
outside of the array has no result. What a new block of memory holds is given as
an argument, since the code reads no element before it has written it.

`Heap_delete` moves the last element of the array to the place of the deleted one and
lets it sink from there. It never lets it rise, and so the order is lost exactly if the
last element belongs above the parent of the deleted one.
-/

namespace CLangProject

open Function

/-- A comparison function that is a total preorder. -/
structure CmpFn (α : Type) where
  cmp : α → α → Int
  swap : ∀ a b, cmp a b < 0 ↔ 0 < cmp b a
  trans : ∀ a b c, cmp a b ≤ 0 → cmp b c ≤ 0 → cmp a c ≤ 0

namespace CmpFn

variable {α : Type} (c : CmpFn α) {a b : α}

def le (a b : α) : Prop := c.cmp a b ≤ 0

instance : IsPreorder α c.le where
  refl a := Int.not_lt.1 fun h => Int.lt_irrefl _ (Int.lt_trans h ((c.swap a a).2 h))
  trans := c.trans

theorem pos_iff : 0 < c.cmp a b ↔ ¬ c.le a b := Int.not_le.symm

theorem neg_iff : c.cmp a b < 0 ↔ ¬ c.le b a := (c.swap a b).trans c.pos_iff

theorem nonneg_iff : 0 ≤ c.cmp a b ↔ c.le b a := by
  rw [← Int.not_lt, c.neg_iff, not_not]

theorem le_of_not_le (h : ¬ c.le a b) : c.le b a := Int.le_of_lt ((c.swap b a).2 (c.pos_iff.2 h))

end CmpFn

structure Heap (α : Type) where
  storage : Nat → α
  nextelementIdx : Nat
  size : Nat

namespace Heap

open BinaryHeap (parent Ordered UpTo DownTo exchange contents)

variable {α : Type} {heap : Heap α} {i j k n fuel : Nat} {cmpFn : α → α → Int}

/-! ## Calls -/

def kResizeStep : Nat := 128

def get (heap : Heap α) (i : Nat) : Option α :=
  if i < heap.size then some (heap.storage i) else none

def set (heap : Heap α) (i : Nat) (x : α) : Option (Heap α) :=
  if i < heap.size then some { heap with storage := update heap.storage i x } else none

/-- The exchange through `tmpvalue`. -/
def swap (heap : Heap α) (i j : Nat) : Option (Heap α) := do
  let tmpvalue ← heap.get i
  let heap ← heap.set i (← heap.get j)
  heap.set j tmpvalue

def siftup (cmpFn : α → α → Int) : (fuel : Nat) → Heap α → (elmIdx : Nat) → Option (Heap α)
  | 0, _, _ => none
  | fuel + 1, heap, elmIdx =>
    if elmIdx = 0 then some heap
    else do
      let parentIdx := (elmIdx - 1) / 2
      let cmpResult := cmpFn (← heap.get elmIdx) (← heap.get parentIdx)
      if cmpResult ≥ 0 then some heap
      else siftup cmpFn fuel (← heap.swap elmIdx parentIdx) parentIdx

def siftdown (cmpFn : α → α → Int) : (fuel : Nat) → Heap α → (parentIdx : Nat) → Option (Heap α)
  | 0, _, _ => none
  | fuel + 1, heap, parentIdx =>
    let leftchild := 2 * parentIdx + 1
    let rightchild := leftchild + 1
    if leftchild ≥ heap.nextelementIdx then some heap
    else do
      let leftCmp := cmpFn (← heap.get parentIdx) (← heap.get leftchild)
      if rightchild ≥ heap.nextelementIdx then
        if leftCmp > 0 then heap.swap parentIdx leftchild else some heap
      else
        let rightCmp := cmpFn (← heap.get parentIdx) (← heap.get rightchild)
        if leftCmp > 0 ∨ rightCmp > 0 then
          let leftRightCmp := cmpFn (← heap.get leftchild) (← heap.get rightchild)
          let swapelement := if leftRightCmp < 0 then leftchild else rightchild
          siftdown cmpFn fuel (← heap.swap parentIdx swapelement) swapelement
        else some heap

/-- The array is a new block with the contents `fresh`. -/
def new (fresh : Nat → α) : Heap α := ⟨fresh, 0, kResizeStep⟩

def isEmpty (heap : Heap α) : Bool := heap.nextelementIdx == 0

/-- A larger block with the contents `fresh`, into which the elements are copied. -/
def resize (heap : Heap α) (fresh : Nat → α) : Heap α :=
  { heap with
    storage := fun i => if i < heap.size then heap.storage i else fresh i
    size := heap.size + kResizeStep }

def insert (cmpFn : α → α → Int) (heap : Heap α) (data : α) (fresh : Nat → α) :
    Option (Heap α) := do
  let heap := if heap.nextelementIdx = heap.size then heap.resize fresh else heap
  let heap ← heap.set heap.nextelementIdx data
  let heap ← siftup cmpFn (heap.nextelementIdx + 1) heap heap.nextelementIdx
  some { heap with nextelementIdx := heap.nextelementIdx + 1 }

/-- The element that has been deleted, if any. -/
def delete (cmpFn : α → α → Int) (heap : Heap α) (elmIdx : Nat) : Option (Heap α × Option α) :=
  if elmIdx ≥ heap.nextelementIdx then some (heap, none)
  else do
    let data ← heap.get elmIdx
    let heap := { heap with nextelementIdx := heap.nextelementIdx - 1 }
    if elmIdx = heap.nextelementIdx then some (heap, some data)
    else do
      let heap ← heap.set elmIdx (← heap.get heap.nextelementIdx)
      let heap ← siftdown cmpFn (heap.nextelementIdx + 1) heap elmIdx
      some (heap, some data)

/-! ## Accesses inside of the array -/

theorem get_of_lt (h : i < heap.size) : heap.get i = some (heap.storage i) := if_pos h

theorem swap_of_lt (hi : i < heap.size) (hj : j < heap.size) :
    heap.swap i j = some { heap with storage := exchange heap.storage i j } := by
  simp [swap, get, set, hi, hj, exchange]

/-! ## Sifting -/

section Sift

variable (c : CmpFn α)

/-- The array after sifting: ordered, with the same elements as before. -/
def Sifted (heap : Heap α) (n : Nat) (res : Option (Heap α)) : Prop :=
  ∃ a, res = some { heap with storage := a } ∧ Ordered c.le a n ∧
    contents a n = contents heap.storage n

variable {c}

theorem Sifted.of_exchange {res : Option (Heap α)} (hi : i < n) (hj : j < n)
    (h : Sifted c { heap with storage := exchange heap.storage i j } n res) :
    Sifted c heap n res := by
  obtain ⟨a, ha, hordered, hcontents⟩ := h
  exact ⟨a, ha, hordered, hcontents.trans (BinaryHeap.contents_exchange hi hj)⟩

theorem siftup_ok (h : UpTo c.le heap.storage n k) (hk : k < n) (hsize : n ≤ heap.size)
    (hfuel : k < fuel) :
    Sifted c heap n (siftup c.cmp fuel heap k) := by
  induction fuel generalizing heap k with
  | zero => cases hfuel
  | succ fuel ih =>
    rw [siftup]
    by_cases hk0 : k = 0
    · rw [if_pos hk0]
      exact ⟨_, rfl, h.ordered fun hpos => by omega, rfl⟩
    · have hpos : 0 < k := by omega
      have hlt : parent k < k := BinaryHeap.parent_lt hpos
      rw [if_neg hk0]
      change Sifted c heap n (heap.get k >>= fun x => heap.get (parent k) >>= fun y => _)
      rw [get_of_lt (by omega), get_of_lt (by omega)]
      by_cases hle : c.le (heap.storage (parent k)) (heap.storage k)
      · refine ⟨_, if_pos (c.nonneg_iff.2 hle), h.ordered fun _ => hle, rfl⟩
      · change Sifted c heap n (if _ then _ else heap.swap k (parent k) >>= fun h' =>
          siftup c.cmp fuel h' (parent k))
        rw [if_neg fun hge => hle (c.nonneg_iff.1 hge), swap_of_lt (by omega) (by omega)]
        exact .of_exchange hk (by omega) (ih (h.exchange hpos hk (c.le_of_not_le hle)) (by omega)
          hsize (by omega))

/-- Nothing moves below an element that does not come after its children. -/
theorem siftdown_stay (hsize : heap.nextelementIdx ≤ heap.size) (hk : k < heap.nextelementIdx)
    (h : ∀ i, 0 < i → i < heap.nextelementIdx → parent i = k →
      c.le (heap.storage k) (heap.storage i)) :
    siftdown c.cmp (fuel + 1) heap k = some heap := by
  have hchild : ∀ i, i = 2 * k + 1 ∨ i = 2 * k + 1 + 1 → i < heap.nextelementIdx →
      ¬ c.cmp (heap.storage k) (heap.storage i) > 0 := fun i hi hin hpos => by
    have hi0 : 0 < i := by omega
    exact c.pos_iff.1 hpos (h i hi0 hin ((BinaryHeap.parent_eq_iff hi0).2 hi))
  rw [siftdown]
  by_cases hleft : 2 * k + 1 ≥ heap.nextelementIdx
  · exact if_pos hleft
  · have hl := hchild _ (.inl rfl) (by omega)
    simp only [if_neg hleft, get_of_lt (show k < heap.size by omega),
      get_of_lt (show 2 * k + 1 < heap.size by omega), Option.bind_eq_bind, Option.bind_some]
    by_cases hright : 2 * k + 1 + 1 ≥ heap.nextelementIdx
    · simp only [if_pos hright, if_neg hl]
    · have hr := hchild _ (.inr rfl) (by omega)
      simp only [if_neg hright, get_of_lt (show 2 * k + 1 + 1 < heap.size by omega),
        Option.bind_some, hl, hr, or_self, if_false]

theorem siftdown_ok (hn : heap.nextelementIdx = n) (h : DownTo c.le heap.storage n k) (hk : k < n)
    (hsize : n ≤ heap.size) (hfuel : n < fuel + k) :
    Sifted c heap n (siftdown c.cmp fuel heap k) := by
  induction fuel generalizing heap k with
  | zero => omega
  | succ fuel ih =>
    by_cases hstay : ∀ i, 0 < i → i < n → parent i = k → c.le (heap.storage k) (heap.storage i)
    · exact ⟨_, siftdown_stay (by omega) (by omega) (hn ▸ hstay), h.ordered hstay, rfl⟩
    · -- a child comes before the element
      have hex : ∃ i, (i = 2 * k + 1 ∨ i = 2 * k + 1 + 1) ∧ i < n ∧
          ¬ c.le (heap.storage k) (heap.storage i) := by
        push Not at hstay
        obtain ⟨i, hi0, hin, hik, hle⟩ := hstay
        exact ⟨i, (BinaryHeap.parent_eq_iff hi0).1 hik, hin, hle⟩
      have hleft : 2 * k + 1 < n := by
        obtain ⟨i, hi, hin, -⟩ := hex
        omega
      have hpl : parent (2 * k + 1) = k := (BinaryHeap.parent_eq_iff (by omega)).2 (.inl rfl)
      have hpr : parent (2 * k + 1 + 1) = k := (BinaryHeap.parent_eq_iff (by omega)).2 (.inr rfl)
      rw [siftdown]
      simp only [hn, if_neg (show ¬ 2 * k + 1 ≥ n by omega),
        get_of_lt (show k < heap.size by omega), get_of_lt (show 2 * k + 1 < heap.size by omega),
          Option.bind_eq_bind, Option.bind_some]
      by_cases hright : 2 * k + 1 + 1 ≥ n
      · have honly : ∀ i, 0 < i → i < n → parent i = k → i = 2 * k + 1 := fun i hi0 hin hik => by
          have := (BinaryHeap.parent_eq_iff hi0).1 hik
          omega
        obtain ⟨i, hi, hin, hle⟩ := hex
        obtain rfl : i = 2 * k + 1 := by omega
        simp only [if_pos hright, if_pos (c.pos_iff.2 hle), swap_of_lt (show k < heap.size by omega)
          (show 2 * k + 1 < heap.size by omega)]
        have hdown := h.exchange (by omega) hpl hleft (c.le_of_not_le hle) fun j hj hjn hjk => by
          rw [honly j hj hjn hjk]
          exact refl_of c.le _
        -- the child has no children
        refine .of_exchange hk hleft ⟨_, rfl, hdown.ordered fun j hj hjn hjk => ?_, rfl⟩
        have := (BinaryHeap.parent_eq_iff hj).1 hjk
        omega
      · have hcond : c.cmp (heap.storage k) (heap.storage (2 * k + 1)) > 0 ∨
            c.cmp (heap.storage k) (heap.storage (2 * k + 1 + 1)) > 0 := by
          obtain ⟨i, rfl | rfl, -, hle⟩ := hex
          · exact .inl (c.pos_iff.2 hle)
          · exact .inr (c.pos_iff.2 hle)
        simp only [if_neg hright, get_of_lt (show 2 * k + 1 + 1 < heap.size by omega),
          Option.bind_some, if_pos hcond]
        -- the smaller one of the children
        obtain ⟨i, hi, hin, hik, hmin⟩ :
          ∃ i, (if c.cmp (heap.storage (2 * k + 1)) (heap.storage (2 * k + 1 + 1)) < 0
            then 2 * k + 1 else 2 * k + 1 + 1) = i ∧ i < n ∧ parent i = k ∧
            ∀ j, 0 < j → j < n → parent j = k → c.le (heap.storage i) (heap.storage j) := by
          refine ⟨_, rfl, ?_⟩
          split
          next hlt =>
            refine ⟨hleft, hpl, fun j hj _ hjk => ?_⟩
            rcases (BinaryHeap.parent_eq_iff hj).1 hjk with rfl | rfl
            · exact refl_of c.le _
            · exact Int.le_of_lt hlt
          next hge =>
            refine ⟨by omega, hpr, fun j hj _ hjk => ?_⟩
            rcases (BinaryHeap.parent_eq_iff hj).1 hjk with rfl | rfl
            · exact c.nonneg_iff.1 (Int.not_lt.1 hge)
            · exact refl_of c.le _
        have hlt : k < i := by
          have hi0 : 0 < i := by split at hi <;> omega
          have := BinaryHeap.parent_lt hi0
          omega
        have hle : c.le (heap.storage i) (heap.storage k) := by
          obtain ⟨j, hj, hjn, hjle⟩ := hex
          have hj0 : 0 < j := by omega
          exact trans_of c.le (hmin j hj0 hjn ((BinaryHeap.parent_eq_iff hj0).2 hj))
            (c.le_of_not_le hjle)
        rw [hi, swap_of_lt (show k < heap.size by omega) (show i < heap.size by omega)]
        exact .of_exchange hk hin (ih hn (h.exchange (by omega) hik hin hle hmin) hin
          hsize (by omega))

end Sift

/-! ## Insertion and deletion -/

/-- A heap whose elements are ordered. -/
structure Wf (c : CmpFn α) (heap : Heap α) : Prop where
  le_size : heap.nextelementIdx ≤ heap.size
  ordered : Ordered c.le heap.storage heap.nextelementIdx

/-- The elements of a heap. -/
def elements (heap : Heap α) : Multiset α := contents heap.storage heap.nextelementIdx

variable {c : CmpFn α}

theorem insert_ok (h : Wf c heap) (data : α) (fresh : Nat → α) :
    ∃ heap', insert c.cmp heap data fresh = some heap' ∧ Wf c heap' ∧
      heap'.elements = data ::ₘ heap.elements := by
  obtain ⟨n, hn⟩ : ∃ n, heap.nextelementIdx = n := ⟨_, rfl⟩
  have hle := h.le_size
  -- the array with room for one more element
  obtain ⟨a, size, hbig, hsize, hsame⟩ : ∃ a size,
      (if heap.nextelementIdx = heap.size then heap.resize fresh else heap) = ⟨a, n, size⟩ ∧
        n < size ∧ ∀ i < n, a i = heap.storage i := by
    by_cases hfull : heap.nextelementIdx = heap.size
    · refine ⟨_, _, (if_pos hfull).trans (by rw [resize, hn]), ?_, fun i hi => if_pos (by omega)⟩
      rw [kResizeStep]
      omega
    · exact ⟨_, _, (if_neg hfull).trans (by rw [← hn]), by omega, fun _ _ => rfl⟩
  -- the order may fail at the new element only
  have hup : UpTo c.le (update a n data) (n + 1) n := by
    refine ⟨fun i hi hin hik => ?_, fun i hi hin hik _ => ?_⟩
    · have hlt := BinaryHeap.parent_lt hi
      rw [update_of_ne (by omega), update_of_ne hik, hsame _ (by omega), hsame i (by omega)]
      exact h.ordered i hi (by omega)
    · have hlt := BinaryHeap.parent_lt hi
      omega
  have hsift : Sifted c ⟨update a n data, n, size⟩ (n + 1) _ :=
    siftup_ok hup (Nat.lt_succ_self n) hsize (Nat.lt_succ_self n)
  obtain ⟨a', ha', hordered, hcontents⟩ := hsift
  refine ⟨⟨a', n + 1, size⟩, ?_, ⟨hsize, hordered⟩, ?_⟩
  · have hset : (⟨a, n, size⟩ : Heap α).set n data = some ⟨update a n data, n, size⟩ := if_pos hsize
    rw [insert, hbig]
    simp only [hset, Option.bind_eq_bind, Option.bind_some]
    rw [ha']
    rfl
  · have hkeep : contents (update a n data) n = contents heap.storage n :=
      BinaryHeap.contents_congr fun i hi => by rw [update_of_ne (Nat.ne_of_lt hi), hsame i hi]
    rw [elements, elements, hcontents, BinaryHeap.contents_succ, hkeep, hn]
    exact congrArg (· ::ₘ _) (update_self ..)

/-- The heap after the last element has taken the place of the element `elmIdx`. -/
def moveLast (heap : Heap α) (elmIdx : Nat) : Heap α :=
  { heap with
    storage := update heap.storage elmIdx (heap.storage (heap.nextelementIdx - 1))
    nextelementIdx := heap.nextelementIdx - 1 }

theorem delete_eq (hsize : heap.nextelementIdx ≤ heap.size) (hk : k < heap.nextelementIdx)
    (hlast : k ≠ heap.nextelementIdx - 1) : delete cmpFn heap k =
      (siftdown cmpFn (heap.nextelementIdx - 1 + 1) (heap.moveLast k) k).map fun heap' =>
        (heap', some (heap.storage k)) := by
  have hget : (⟨heap.storage, heap.nextelementIdx - 1, heap.size⟩ : Heap α).get
      (heap.nextelementIdx - 1) = some (heap.storage (heap.nextelementIdx - 1)) :=
    get_of_lt (show heap.nextelementIdx - 1 < heap.size by omega)
  have hset : (⟨heap.storage, heap.nextelementIdx - 1, heap.size⟩ : Heap α).set k
      (heap.storage (heap.nextelementIdx - 1)) = some (heap.moveLast k) :=
    if_pos (show k < heap.size by omega)
  simp only [delete, if_neg (show ¬ k ≥ heap.nextelementIdx by omega),
    get_of_lt (show k < heap.size by omega), if_neg hlast, Option.bind_eq_bind,
      Option.bind_some, hget, hset]
  exact (Option.map_eq_bind ..).symm

theorem elements_moveLast (hk : k < heap.nextelementIdx - 1) :
    heap.elements = heap.storage k ::ₘ (heap.moveLast k).elements := by
  obtain ⟨n, hn⟩ : ∃ n, heap.nextelementIdx = n + 1 := ⟨heap.nextelementIdx - 1, by omega⟩
  rw [hn, Nat.add_sub_cancel] at hk
  simp only [elements, moveLast, hn, Nat.add_sub_cancel]
  rw [BinaryHeap.contents_succ, BinaryHeap.contents_update hk]

/-- The last element may take the place of the element `elmIdx`. -/
def Fits (c : CmpFn α) (heap : Heap α) (elmIdx : Nat) : Prop :=
  elmIdx = 0 ∨ elmIdx = heap.nextelementIdx - 1 ∨
    c.le (heap.storage (parent elmIdx)) (heap.storage (heap.nextelementIdx - 1))

theorem delete_ok (h : Wf c heap) (hk : k < heap.nextelementIdx) (hfits : Fits c heap k) :
    ∃ heap', delete c.cmp heap k = some (heap', some (heap.storage k)) ∧ Wf c heap' ∧
      heap.elements = heap.storage k ::ₘ heap'.elements := by
  have hsize := h.le_size
  obtain ⟨n, hn⟩ : ∃ n, heap.nextelementIdx = n + 1 := ⟨heap.nextelementIdx - 1, by omega⟩
  by_cases hlast : k = heap.nextelementIdx - 1
  · refine ⟨{ heap with nextelementIdx := heap.nextelementIdx - 1 }, ?_,
      ⟨Nat.le_trans (Nat.sub_le _ 1) hsize, h.ordered.mono (Nat.sub_le _ 1)⟩, ?_⟩
    · simp only [delete, if_neg (show ¬ k ≥ heap.nextelementIdx by omega),
        get_of_lt (show k < heap.size by omega), if_pos hlast, Option.bind_eq_bind,
          Option.bind_some]
    · simp only [elements, hlast, hn, Nat.add_sub_cancel]
      exact BinaryHeap.contents_succ
  · have hfit : 0 < k → c.le (heap.storage (parent k)) (heap.storage (heap.nextelementIdx - 1)) :=
      fun hpos =>
      (hfits.resolve_left (Nat.ne_of_gt hpos)).resolve_left hlast
    have hk' : k < heap.nextelementIdx - 1 := by omega
    have hdown := (h.ordered.mono (Nat.sub_le _ 1)).update hk' hfit
    have hsift : Sifted c (heap.moveLast k) (heap.nextelementIdx - 1) _ :=
      siftdown_ok rfl hdown hk' (Nat.le_trans (Nat.sub_le _ 1) hsize)
        (Nat.lt_add_right k (Nat.lt_succ_self _))
    obtain ⟨a, ha, hordered, hcontents⟩ := hsift
    refine ⟨⟨a, heap.nextelementIdx - 1, heap.size⟩, by rw [delete_eq hsize hk hlast, ha]; rfl,
      ⟨Nat.le_trans (Nat.sub_le _ 1) hsize, hordered⟩, ?_⟩
    rw [elements_moveLast hk']
    exact congrArg _ hcontents.symm

/-- `Heap_delete` returns the element and removes it from an ordered heap. -/
def Deletes (c : CmpFn α) (heap : Heap α) (elmIdx : Nat) : Prop :=
  ∃ heap', delete c.cmp heap elmIdx = some (heap', some (heap.storage elmIdx)) ∧
    heap.elements = heap.storage elmIdx ::ₘ heap'.elements ∧
      Ordered c.le heap'.storage heap'.nextelementIdx

/-- If the last element belongs above the parent, it stays where it is put. -/
theorem not_deletes (h : Wf c heap) (hk : k < heap.nextelementIdx) (hfits : ¬ Fits c heap k) :
    ¬ Deletes c heap k := by
  rintro ⟨heap', hdelete, -, hordered⟩
  simp only [Fits, not_or] at hfits
  obtain ⟨hk0, hlast, hle⟩ := hfits
  have hsize := h.le_size
  have hpos : 0 < k := Nat.pos_of_ne_zero hk0
  have hlt := BinaryHeap.parent_lt hpos
  have hstay : siftdown c.cmp (heap.nextelementIdx - 1 + 1) (heap.moveLast k) k =
      some (heap.moveLast k) := by
    refine siftdown_stay (Nat.le_trans (Nat.sub_le _ 1) hsize)
      (show k < heap.nextelementIdx - 1 by omega)
      fun i hi hin hik => ?_
    have hlt' := BinaryHeap.parent_lt hi
    have hin : i < heap.nextelementIdx - 1 := hin
    simp only [moveLast]
    rw [update_self, update_of_ne (by omega)]
    refine trans_of c.le (c.le_of_not_le hle) (trans_of c.le (h.ordered k hpos hk) ?_)
    rw [← hik]
    exact h.ordered i hi (by omega)
  rw [delete_eq hsize hk hlast, hstay] at hdelete
  obtain rfl : heap.moveLast k = heap' := congrArg Prod.fst (Option.some.inj hdelete)
  have := hordered k hpos (show k < heap.nextelementIdx - 1 by omega)
  simp only [moveLast] at this
  rw [update_of_ne (by omega), update_self] at this
  exact hle this

/-- The element is returned and removed and the heap stays ordered, exactly if the last
element may take its place. -/
theorem delete_iff_fits (c : CmpFn α) (heap : Heap α) (elmIdx : Nat) (h : Wf c heap)
    (hidx : elmIdx < heap.nextelementIdx) : Deletes c heap elmIdx ↔ Fits c heap elmIdx := by
  refine ⟨fun hdel => by_contra fun hfits => not_deletes h hidx hfits hdel, fun hfits => ?_⟩
  obtain ⟨heap', hdelete, hwf, helements⟩ := delete_ok h hidx hfits
  exact ⟨heap', hdelete, helements, hwf.ordered⟩

/-- Integers in their order. -/
def intCmp : CmpFn Int where
  cmp a b := a - b
  swap a b := by omega
  trans a b c := by omega

/-- The elements 1, 10, 2, 11, 12, 3, 4. -/
def sevenHeap : Heap Int := ⟨fun i => [1, 10, 2, 11, 12, 3, 4].getD i 0, 7, 128⟩

theorem wf_sevenHeap : Wf intCmp sevenHeap := by
  refine ⟨by decide, fun i hi hin => ?_⟩
  have hin : i < 7 := hin
  unfold CmpFn.le
  interval_cases i <;> decide

theorem delete_iff_fits_root : Wf intCmp sevenHeap ∧ 0 < sevenHeap.nextelementIdx ∧
    (Deletes intCmp sevenHeap 0 ↔ Fits intCmp sevenHeap 0) :=
  ⟨wf_sevenHeap, by decide, delete_iff_fits intCmp sevenHeap 0 wf_sevenHeap (by decide)⟩

/-- The element 11 is replaced by 4, which stays below 10. -/
theorem not_deletes_eleven : Wf intCmp sevenHeap ∧ 3 < sevenHeap.nextelementIdx ∧
    ¬ Deletes intCmp sevenHeap 3 := by
  refine ⟨wf_sevenHeap, by decide, fun ⟨heap', hdelete, _, hordered⟩ => ?_⟩
  have hrun : delete intCmp.cmp sevenHeap 3 = some (sevenHeap.moveLast 3, some 11) := rfl
  rw [hrun] at hdelete
  obtain rfl : sevenHeap.moveLast 3 = heap' := congrArg Prod.fst (Option.some.inj hdelete)
  exact absurd (hordered 3 (by decide) (by decide)) (by unfold CmpFn.le; decide)

/-! ## Priority queues -/

/-- A call, an insertion with the contents of the new block if the array has to grow. -/
inductive QueueCall (α : Type) where
  | insert (data : α) (fresh : Nat → α)
  | deleteFirst

/-- `Heap_delete` of the first element until it fails. -/
def drain (cmpFn : α → α → Int) : (fuel : Nat) → Heap α → Option (List α)
  | 0, _ => none
  | fuel + 1, heap =>
    match delete cmpFn heap 0 with
    | none => none
    | some (_, none) => some []
    | some (heap, some data) => (drain cmpFn fuel heap).map (data :: ·)

/-- The heap holds the elements `s`: it is empty if there are none, and draining it yields
all of them in order. -/
structure Queue (c : CmpFn α) (heap : Heap α) (s : Multiset α) : Prop where
  isEmpty_iff : heap.isEmpty = true ↔ s = 0
  drains : ∃ l, drain c.cmp (s.card + 1) heap = some l ∧ l = s ∧ l.Pairwise fun x y => c.cmp x y ≤ 0

/-- All calls have a result. A deletion fails if there are no elements, and otherwise
returns and removes a least one. -/
def Serves (c : CmpFn α) : Heap α → Multiset α → List (QueueCall α) → Prop
  | heap, s, [] => Queue c heap s
  | heap, s, .insert data fresh :: cs =>
    Queue c heap s ∧ ∃ heap', insert c.cmp heap data fresh = some heap' ∧
      Serves c heap' (data ::ₘ s) cs
  | heap, s, .deleteFirst :: cs =>
    Queue c heap s ∧ (s = 0 → delete c.cmp heap 0 = some (heap, none) ∧ Serves c heap s cs) ∧
      (s ≠ 0 → ∃ heap' data s', delete c.cmp heap 0 = some (heap', some data) ∧ s = data ::ₘ s' ∧
        (∀ x ∈ s, c.cmp data x ≤ 0) ∧ Serves c heap' s' cs)

theorem delete_empty (h : heap.nextelementIdx = 0) : delete cmpFn heap k = some (heap, none) := by
  rw [delete, if_pos (by omega)]

theorem elements_eq_zero : heap.elements = 0 ↔ heap.nextelementIdx = 0 := by
  rw [← Multiset.card_eq_zero, elements, BinaryHeap.card_contents]

section

variable (h : Wf c heap)
include h

/-- The first element is a least one. -/
theorem delete_first (hne : heap.elements ≠ 0) : ∃ heap' data,
    delete c.cmp heap 0 = some (heap', some data) ∧ Wf c heap' ∧
      heap.elements = data ::ₘ heap'.elements ∧ ∀ x ∈ heap.elements, c.cmp data x ≤ 0 := by
  have hpos : 0 < heap.nextelementIdx := Nat.pos_of_ne_zero fun h0 => hne (elements_eq_zero.2 h0)
  obtain ⟨heap', hdelete, hwf, helements⟩ := delete_ok h hpos (.inl rfl)
  refine ⟨heap', _, hdelete, hwf, helements, fun x hx => ?_⟩
  obtain ⟨i, hi, rfl⟩ := BinaryHeap.mem_contents.1 hx
  exact h.ordered.root_le hi

theorem drain_ok : ∃ l, drain c.cmp (heap.elements.card + 1) heap = some l ∧ l = heap.elements ∧
    l.Pairwise fun x y => c.cmp x y ≤ 0 := by
  obtain ⟨n, hn⟩ : ∃ n, heap.elements.card = n := ⟨_, rfl⟩
  rw [hn]
  induction n generalizing heap with
  | zero =>
    have hzero := Multiset.card_eq_zero.1 hn
    refine ⟨[], ?_, by rw [hzero]; rfl, .nil⟩
    rw [drain, delete_empty (elements_eq_zero.1 hzero)]
  | succ n ih =>
    obtain ⟨heap', data, hdelete, hwf, helements, hleast⟩ :=
      delete_first h fun hzero => by simp [hzero] at hn
    rw [helements, Multiset.card_cons, Nat.succ_inj] at hn
    obtain ⟨l, hl, hcoe, hpairwise⟩ := ih hwf hn
    refine ⟨data :: l, by rw [drain, hdelete]; simp only [hl, Option.map_some], ?_,
      .cons (fun x hx => ?_) hpairwise⟩
    · rw [helements, ← hcoe]
      rfl
    · refine hleast x ?_
      rw [helements, ← hcoe]
      exact Multiset.mem_cons_of_mem hx

theorem Wf.queue : Queue c heap heap.elements where
  isEmpty_iff := by
    rw [elements_eq_zero]
    exact beq_iff_eq
  drains := drain_ok h

theorem Wf.serves (cs : List (QueueCall α)) : Serves c heap heap.elements cs := by
  induction cs generalizing heap with
  | nil => exact h.queue
  | cons call cs ih =>
    cases call with
    | insert data fresh =>
      obtain ⟨heap', hinsert, hwf, helements⟩ := insert_ok h data fresh
      exact ⟨h.queue, heap', hinsert, helements ▸ ih hwf⟩
    | deleteFirst =>
      refine ⟨h.queue, fun hzero => ⟨delete_empty (elements_eq_zero.1 hzero), ih h⟩, fun hne => ?_⟩
      obtain ⟨heap', data, hdelete, hwf, helements, hleast⟩ := delete_first h hne
      exact ⟨heap', data, _, hdelete, helements, hleast, ih hwf⟩

end

theorem wf_new (c : CmpFn α) (fresh : Nat → α) : Wf c (new fresh) :=
  ⟨Nat.zero_le _, fun i _ hin => absurd hin (Nat.not_lt_zero i)⟩

/-- In every run from the empty heap, it is a priority queue. -/
theorem serves_new (c : CmpFn α) (fresh : Nat → α) (cs : List (QueueCall α)) :
    Serves c (new fresh) 0 cs :=
  (wf_new c fresh).serves cs

end Heap

end CLangProject

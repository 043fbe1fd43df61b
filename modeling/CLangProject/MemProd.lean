import CLangProject.MemDevRun

/-!
# The production allocator of `memory.c`

The production build hands every request to the C library and throws
`Memory_Failed` when the answer is NULL. It is compiled with `NDEBUG`, so the
`Require`s check nothing. What the C standard leaves undefined has the outcome
`stuck`: `free` or `realloc` of an address at which no region is held.

`Regular` is what the C library guarantees of the regions held, and every call
keeps it (`Reached.regular`).
-/

namespace CLangProject

open List Option

/-- The regions held do not overlap, and none is empty or at NULL. -/
structure CHeap.Regular (H : CHeap) : Prop where
  apart : H.held.Pairwise Extent.Apart
  pos : ∀ r ∈ H.held, 0 < r.base ∧ 0 < r.size

namespace CHeap.Regular

variable {H : CHeap}

theorem init : CHeap.init.Regular := ⟨.nil, by simp [CHeap.init]⟩

section

variable (h : H.Regular)
include h

theorem congr {H' : CHeap} (hheld : H'.held = H.held) : H'.Regular :=
  ⟨hheld ▸ h.apart, hheld ▸ h.pos⟩

theorem free (p : Nat) : (H.free p).Regular :=
  ⟨h.apart.sublist eraseP_sublist, fun r hr => h.pos r (mem_of_mem_eraseP hr)⟩

theorem malloc (M : Malloc) {n : Nat} (hn : 0 < n) : (M.malloc n H).2.Regular := by
  rcases M.malloc_cases n H with ⟨a, heq, hpos, -, -, hap⟩ | heq <;> rw [heq]
  · exact ⟨pairwise_cons.2 ⟨hap, h.apart⟩, forall_mem_cons.2 ⟨⟨hpos, hn⟩, h.pos⟩⟩
  · exact h.congr rfl

/-- After `free` no region is held at the address. -/
theorem find_free (p : Nat) : (H.free p).held.find? (·.base == p) = none := by
  obtain ⟨held, t⟩ := H
  obtain ⟨hap, hpos⟩ := h
  change (held.eraseP (·.base == p)).find? (·.base == p) = none
  change held.Pairwise Extent.Apart at hap
  change ∀ r ∈ held, 0 < r.base ∧ 0 < r.size at hpos
  induction held with
  | nil => rfl
  | cons r held ih =>
    obtain ⟨hr, hap⟩ := pairwise_cons.1 hap
    obtain ⟨⟨-, hsize⟩, hpos⟩ := forall_mem_cons.1 hpos
    by_cases hp : r.base = p
    · rw [eraseP_cons_of_pos (by simpa using hp), List.find?_eq_none]
      intro q hq hqp
      have := hr q hq
      have := (hpos q hq).2
      simp only [beq_iff_eq] at hqp
      unfold Extent.Apart at *
      omega
    · rw [eraseP_cons_of_neg (by simpa using hp), List.find?_cons_of_neg (by simpa using hp)]
      exact ih hap hpos

end

end CHeap.Regular

namespace MemoryProd

open MemoryDev (Exc)

/-- `__FILE__` and `__LINE__` inside `memory.c`. -/
def here (line : Nat) : Coord := ⟨some "memory.c", line⟩

structure Mem where
  heap : CHeap
  bytes : Nat → UInt8

def Mem.init : Mem := ⟨CHeap.init, fun _ => 0⟩

/-- The region held at `p`. -/
def Mem.region (s : Mem) (p : Nat) : Option Extent := s.heap.held.find? (·.base == p)

/-! ## The C library -/

/-- A request for 0 bytes that is granted has a region of its own. -/
def malloc (M : Malloc) (n : Nat) (s : Mem) : Option Nat × Mem :=
  (M.malloc (max n 1) s.heap).map id ({ s with heap := · })

/-- The product is computed without wrapping. -/
def calloc (M : Malloc) (count n : Nat) (s : Mem) : Option Nat × Mem :=
  if 2 ^ 64 ≤ count * n then (none, s)
  else
    match malloc M (count * n) s with
    | (some ptr, s) =>
      (some ptr,
        { s with bytes := fun a => if ptr ≤ a ∧ a < ptr + count * n then 0 else s.bytes a })
    | (none, s) => (none, s)

def free (ptr : Nat) (s : Mem) : Option Mem :=
  if ptr = 0 then some s
  else if s.region ptr = none then none
  else some { s with heap := s.heap.free ptr }

/-- The new region may overlap the old one. When it is refused, the old one
stays. -/
def realloc (M : Malloc) (ptr n : Nat) (s : Mem) : Option (Option Nat × Mem) :=
  if ptr = 0 then some (malloc M n s)
  else
    match s.region ptr with
    | none => none
    | some r =>
      match malloc M n { s with heap := s.heap.free ptr } with
      | (some q, s) =>
        some (some q, { s with bytes := fun a =>
          if q ≤ a ∧ a < q + min n r.size then s.bytes (ptr + (a - q)) else s.bytes a })
      | (none, _) => some (none, { s with heap := ⟨s.heap.held, s.heap.calls + 1⟩ })

/-! ## The interface -/

def memoryAlloc (M : Malloc) (nbytes : Nat) (loc : Coord) (s : Mem) : Outcome Exc Nat × Mem :=
  match malloc M nbytes s with
  | (some ptr, s) => (.ok ptr, s)
  | (none, s) => (.throwAt .memoryFailed loc (here 28), s)

def memoryCalloc (M : Malloc) (count nbytes : Nat) (loc : Coord) (s : Mem) :
    Outcome Exc Nat × Mem :=
  match calloc M count nbytes s with
  | (some ptr, s) => (.ok ptr, s)
  | (none, s) => (.throwAt .memoryFailed loc (here 46), s)

def memoryResize (M : Malloc) (ptr nbytes : Nat) (loc : Coord) (s : Mem) : Outcome Exc Nat × Mem :=
  match realloc M ptr nbytes s with
  | none => (.stuck, s)
  | some (some tmp, s) => (.ok tmp, s)
  | some (none, s) =>
    -- the old region is given back before the throw
    match free ptr s with
    | none => (.stuck, s)
    | some s => (.throwAt .memoryFailed loc (here 67), s)

def memoryFree (ptr : Nat) (s : Mem) : Outcome Exc Unit × Mem :=
  if ptr = 0 then (.ok (), s)
  else
    match free ptr s with
    | none => (.stuck, s)
    | some s => (.ok (), s)

def exec (M : Malloc) (s : Mem) : MemoryDev.Call → Outcome Exc (Option Nat) × Mem
  | .alloc n loc => (memoryAlloc M n loc s).map (Outcome.map some) id
  | .calloc count n loc => (memoryCalloc M count n loc s).map (Outcome.map some) id
  | .resize p n loc => (memoryResize M p n loc s).map (Outcome.map some) id
  | .free p _ => (memoryFree p s).map (Outcome.map fun _ => none) id

/-! ## The regions held -/

section Regular

variable {s : Mem} (h : s.heap.Regular) (M : Malloc)
include h

theorem malloc_regular (n : Nat) : (malloc M n s).2.heap.Regular := h.malloc M (by omega)

theorem calloc_regular (count n : Nat) : (calloc M count n s).2.heap.Regular := by
  have hm := malloc_regular h M (count * n)
  unfold calloc
  split_ifs with hle
  · exact h
  · rcases heq : malloc M (count * n) s with ⟨_ | p, s'⟩ <;> rw [heq] at hm <;> exact hm

theorem free_regular {p : Nat} {s' : Mem} (hs : free p s = some s') : s'.heap.Regular := by
  unfold free at hs
  split_ifs at hs
  · exact some.inj hs ▸ h
  · exact some.inj hs ▸ h.free p

theorem realloc_regular {p n : Nat} {r : Option Nat × Mem} (hr : realloc M p n s = some r) :
    r.2.heap.Regular := by
  unfold realloc at hr
  split_ifs at hr
  · exact some.inj hr ▸ malloc_regular h M n
  rcases hreg : s.region p with _ | e <;> simp only [hreg, reduceCtorEq] at hr
  have hfreed := malloc_regular (s := { s with heap := s.heap.free p }) (h.free p) M n
  rcases heq : malloc M n { s with heap := s.heap.free p } with ⟨_ | q, s'⟩ <;>
    rw [heq] at hr hfreed
  · exact some.inj hr ▸ h.congr rfl
  · exact some.inj hr ▸ hfreed

theorem memoryResize_regular (p n : Nat) (loc : Coord) :
    (memoryResize M p n loc s).2.heap.Regular := by
  unfold memoryResize
  rcases hr : realloc M p n s with _ | ⟨_ | q, s'⟩
  · exact h
  · have hs' := realloc_regular h M hr
    dsimp only
    rcases hf : free p s' with _ | s''
    · exact hs'
    · exact free_regular hs' hf
  · exact realloc_regular h M hr

/-- No call breaks the regions held. -/
theorem exec_regular (c : MemoryDev.Call) : (exec M s c).2.heap.Regular := by
  cases c with
  | alloc n loc =>
    have hm := malloc_regular h M n
    simp only [exec, memoryAlloc]
    rcases heq : malloc M n s with ⟨_ | p, s'⟩ <;> rw [heq] at hm <;> exact hm
  | calloc count n loc =>
    have hm := calloc_regular h M count n
    simp only [exec, memoryCalloc]
    rcases heq : calloc M count n s with ⟨_ | p, s'⟩ <;> rw [heq] at hm <;> exact hm
  | resize p n loc => exact memoryResize_regular h M p n loc
  | free p loc =>
    simp only [exec, memoryFree]
    split_ifs with hp
    · exact h
    · rcases hf : free p s with _ | s'
      · exact h
      · exact free_regular h hf

end Regular

/-- The states after any calls. -/
inductive Reached (M : Malloc) : Mem → Prop where
  | init : Reached M .init
  | call {s : Mem} (c : MemoryDev.Call) : Reached M s → Reached M (exec M s c).2

theorem Reached.regular {M : Malloc} {s : Mem} (h : Reached M s) : s.heap.Regular := by
  induction h with
  | init => exact .init
  | call c _ ih => exact exec_regular ih M c

/-! ## A failing `Memory_resize` -/

/-- When `Memory_resize` throws, nothing is held any more at the address. -/
theorem resize_failed {s s' : Mem} (h : s.heap.Regular) {M : Malloc} {p n : Nat}
    {loc l : Coord} {e : Exc} (hp : s.region p ≠ none)
    (hr : memoryResize M p n loc s = (.raise e l, s')) : s'.region p = none := by
  obtain ⟨r, hreg⟩ := ne_none_iff_exists'.1 hp
  have hp0 : p ≠ 0 := by
    rintro rfl
    have := (h.pos r (mem_of_find?_eq_some hreg)).1
    have := List.find?_some hreg
    simp only [beq_iff_eq] at this
    omega
  simp only [memoryResize, realloc, if_neg hp0, hreg] at hr
  rcases heq : malloc M n { s with heap := s.heap.free p } with ⟨_ | q, s1⟩ <;>
    simp only [heq] at hr
  · -- NULL: the region that `realloc` has left is given back
    rw [free, if_neg hp0, if_neg (show Mem.region { s with heap := ⟨s.heap.held, s.heap.calls + 1⟩ }
      p ≠ none from hp)] at hr
    obtain ⟨-, rfl⟩ := Prod.mk.inj hr
    exact h.find_free p
  · simp at hr

end MemoryProd

end CLangProject

import CLangProject.Heap
import CLangProject.MemDevRequest
import CLangProject.MemProd
import CLangProject.Stacks

/-!
# Containers whose storage cannot grow

`Heap_insert` and `Stack_push` call `RESIZE` when the storage is full. The macro
assigns the new address only if `Memory_resize` returns, so an exception leaves
the fields of the container as they are, and what they are worth afterwards
depends on which `Memory_resize` is linked. The one of `memory-dev.c` has not
touched the old block; the one of `memory.c` has given it back, and the container
points to storage that is not live any more (`usable_iff`).

Here the storage of a container is a block of memory, as one of the two
implementations of `memory.h` hands it out. An access outside of the block has
the outcome `stuck`.
-/

namespace CLangProject

open Option

namespace MemoryDev

variable {s : Mem} {ring : List Nat}

variable {loc l : Coord} {s' : Mem} {p n i : Nat}

theorem memoryFree_raise {e : Exc} (h : memoryFree p loc s = (.raise e l, s')) :
    e = .assertFailed := by
  unfold memoryFree at h
  split_ifs at h
  · simp at h
  rcases ho : owner s p with _ | _ | i <;> simp only [ho, Prod.mk.injEq, Outcome.raise.injEq,
    reduceCtorEq, false_and] at h
  exact h.1.1.symm

/-- After `Memory_alloc` has succeeded, `Memory_resize` can only raise
`Assert_Failed`. -/
theorem moved_failed {r : Outcome Exc Nat × Mem}
    (h : moved p n i loc r = (.raise .memoryFailed l, s')) : r = (.raise .memoryFailed l, s') := by
  obtain ⟨_ | _ | _, s1⟩ := r
  case ok q =>
    exfalso
    simp only [moved] at h
    rcases hf : memoryFree p loc (s1.memcpy q p (min n (s1.desc i).size)) with ⟨_ | _ | _, s2⟩ <;>
      simp only [hf, Prod.mk.injEq, Outcome.raise.injEq, reduceCtorEq, false_and] at h
    obtain ⟨⟨rfl, -⟩, -⟩ := h
    cases memoryFree_raise hf
  case raise => exact h
  case stuck => exact h

/-- When `Memory_resize` fails for want of memory, the block is as before. -/
theorem Wired.resize_failed (h : Wired s ring) {M : Malloc} (ho : owner s p = some (some i))
    (hr : Settles (fun fuel => memoryResizeIn M fuel p n loc s) (.raise .memoryFailed l, s')) :
    owner s' p = some (some i) ∧ (s'.desc i).size = (s.desc i).size ∧ s'.bytes = s.bytes := by
  have hp : p ≠ 0 := by
    rintro rfl
    cases hr.unique (.of_eq fun fuel => rfl)
  have hn : n ≠ 0 := by
    rintro rfl
    have hz : Settles (fun fuel => memoryResizeIn M fuel p 0 loc s)
        (.raise .preconditionFailed (here 180), s) :=
      .of_eq fun fuel => by simp only [memoryResizeIn, if_neg hp, if_true]
    cases hr.unique hz
  obtain ⟨r, hsettles, hreq, -⟩ := h.alloc M hn loc
  simp only [memoryResizeIn_eq M _ hp hn ho loc] at hr
  obtain rfl := moved_failed (hr.unique (Ends.map hsettles (MemoryDev.moved p n i loc))).symm
  obtain ⟨-, htab, hlink⟩ := hreq.raised _ _ rfl
  rcases h.owner_cases p with ⟨j, hused, hfree, hfind, hj⟩ | hnone
  · obtain rfl : j = i := some.inj (some.inj (hj.symm.trans ho))
    have hfind' : find s' p = find s p :=
      h.find_eq hreq.kept.avail htab (fun k hk => ⟨hreq.kept.ptr k hk, hlink k hk⟩) p
    have hfree' : (s'.desc j).free = none := (hreq.kept.free j hused).2 hfree
    refine ⟨?_, hreq.kept.size j hused hfree, hreq.bytes⟩
    rw [owner] at ho ⊢
    split_ifs at ho ⊢ with hal
    · exact ho
    · rw [hfind', hfind]
      simp only [hfree', ne_eq, not_true_eq_false, if_false]
  · exact absurd (hnone.symm.trans ho) (by simp)

end MemoryDev

namespace Resize

open MemoryDev (Exc Settles sizeT)
open Heap (kResizeStep)
open Stacks (resizeStep unsigned)

/-! ## The two implementations of `memory.h` -/

inductive Memory where
  | dev (s : MemoryDev.Mem)
  | production (s : MemoryProd.Mem)

namespace Memory

def bytes : Memory → Nat → UInt8
  | .dev s => s.bytes
  | .production s => s.bytes

def setBytes (b : Nat → UInt8) : Memory → Memory
  | .dev s => .dev { s with bytes := b }
  | .production s => .production { s with bytes := b }

/-- The size of the live block at `p`. -/
def room (p : Nat) : Memory → Option Nat
  | .dev s =>
    match MemoryDev.owner s p with
    | some (some i) => some (s.desc i).size
    | _ => none
  | .production s => (s.region p).map (·.size)

def memoryResizeIn (M : Malloc) (fuel ptr nbytes : Nat) (loc : Coord) : Memory →
    Outcome Exc Nat × Memory
  | .dev s => (MemoryDev.memoryResizeIn M fuel ptr nbytes loc s).map id .dev
  | .production s => (MemoryProd.memoryResize M ptr nbytes loc s).map id .production

/-- What all calls of `memory.h` keep. -/
def Sound : Memory → Prop
  | .dev s => ∃ ring, MemoryDev.Wired s ring
  | .production s => s.heap.Regular

def IsDev : Memory → Prop
  | .dev _ => True
  | .production _ => False

end Memory

/-- The states of the memory that calls of `memory.h` lead to. -/
inductive Reached (M : Malloc) : Memory → Prop where
  | dev {s : MemoryDev.Mem} : MemoryDev.Reached M s → Reached M (.dev s)
  | production {s : MemoryProd.Mem} : MemoryProd.Reached M s → Reached M (.production s)

theorem Reached.sound {M : Malloc} {m : Memory} (h : Reached M m) : m.Sound := by
  cases h with
  | dev h => exact h.wired
  | production h => exact h.regular

/-! ## Arrays of objects -/

/-- An `Object_T` is a pointer. -/
abbrev Object := Fin 8 → UInt8

def sizeofObject : Nat := 8

/-- `storage[i]` -/
def slot (b : Nat → UInt8) (storage i : Nat) : Object := fun k => b (storage + sizeofObject * i + k)

/-- The memory with the objects `a` in the `n` slots from `storage` on. -/
def fill (b : Nat → UInt8) (storage n : Nat) (a : Nat → Object) : Nat → UInt8 := fun x =>
  if storage ≤ x ∧ x < storage + sizeofObject * n then
    a ((x - storage) / sizeofObject) ⟨(x - storage) % sizeofObject, Nat.mod_lt _ (by decide)⟩
  else b x

/-- The number of slots of the live block at `storage`. -/
def slots (m : Memory) (storage : Nat) : Nat := (m.room storage).getD 0 / sizeofObject

/-! ## `Heap_insert` -/

structure HeapT where
  storage : Nat
  nextelementIdx : Nat
  size : Nat
deriving Repr, DecidableEq

namespace HeapT

/-- The array, as far as the block goes. -/
def array (heap : HeapT) (m : Memory) : Heap Object where
  storage := slot m.bytes heap.storage
  nextelementIdx := heap.nextelementIdx
  size := slots m heap.storage

/-- The end of `Heap_insert`: the object is put into its place. -/
def place (cmpFn : Object → Object → Int) (data : Object) (heap : HeapT) (m : Memory) :
    Outcome Exc Unit × HeapT × Memory :=
  match ((heap.array m).set heap.nextelementIdx data).bind
      fun a => Heap.siftup cmpFn (heap.nextelementIdx + 1) a heap.nextelementIdx with
  | none => (.stuck, heap, m)
  | some a =>
    (.ok (), { heap with nextelementIdx := sizeT (heap.nextelementIdx + 1) },
      m.setBytes (fill m.bytes heap.storage a.size a.storage))

def insertIn (M : Malloc) (fuel : Nat) (cmpFn : Object → Object → Int) (data : Object)
    (heap : HeapT) (m : Memory) :
    Outcome Exc Unit × HeapT × Memory :=
  if heap.nextelementIdx = heap.size then
    match m.memoryResizeIn M fuel heap.storage (sizeT ((heap.size + kResizeStep) * sizeofObject))
      ⟨some "heap.c", 132⟩ with
    | (.ok newstorage, m) =>
      place cmpFn data { heap with storage := newstorage, size := sizeT (heap.size + kResizeStep) }
        m
    | (.raise e l, m) => (.raise e l, heap, m)
    | (.stuck, m) => (.stuck, heap, m)
  else place cmpFn data heap m

end HeapT

/-! ## `Stack_push` -/

structure StackT where
  storage : Nat
  top : Nat
  size : Nat
deriving Repr, DecidableEq

namespace StackT

/-- `CURRENT_SIZE` -/
def currentSize (stack : StackT) : Int := ((stack.top : Int) - stack.storage) / sizeofObject

/-- The end of `Stack_push`: the object is stored at `top`. -/
def place (data : Object) (stack : StackT) (m : Memory) : Outcome Exc Unit × StackT × Memory :=
  if stack.storage ≤ stack.top ∧ stack.top + sizeofObject ≤ stack.storage +
    (m.room stack.storage).getD 0 then (.ok (), { stack with top := stack.top + sizeofObject },
      m.setBytes (fill m.bytes stack.top 1 fun _ => data))
  else (.stuck, stack, m)

def pushIn (M : Malloc) (fuel : Nat) (data : Object) (stack : StackT) (m : Memory) :
    Outcome Exc Unit × StackT × Memory :=
  if stack.currentSize = stack.size then
    match m.memoryResizeIn M fuel stack.storage (unsigned (stack.size + resizeStep) * sizeofObject)
        ⟨some "array_stack.c", 61⟩ with
    | (.ok newstack, m) =>
      place data ⟨newstack, newstack + sizeofObject * stack.size,
      unsigned (stack.size + resizeStep)⟩ m
    | (.raise e l, m) => (.raise e l, stack, m)
    | (.stuck, m) => (.stuck, stack, m)
  else place data stack m

end StackT

/-! ## Containers -/

inductive Container where
  | heap (h : HeapT)
  | stack (s : StackT)
deriving Repr, DecidableEq

namespace Container

def storage : Container → Nat
  | .heap h => h.storage
  | .stack s => s.storage

def size : Container → Nat
  | .heap h => h.size
  | .stack s => s.size

/-- The number of elements. -/
def count : Container → Int
  | .heap h => h.nextelementIdx
  | .stack s => s.currentSize

def elements (c : Container) (m : Memory) : List Object :=
  (List.range c.count.toNat).map (slot m.bytes c.storage)

/-- `Heap_insert` or `Stack_push`. -/
def insertIn (M : Malloc) (fuel : Nat) (cmpFn : Object → Object → Int) (data : Object)
    (c : Container) (m : Memory) :
    Outcome Exc Unit × Container × Memory :=
  match c with
  | .heap h => (h.insertIn M fuel cmpFn data m).map id (Prod.map .heap id)
  | .stack s => (s.pushIn M fuel data m).map id (Prod.map .stack id)

/-- The storage is a live block that has space for `size` objects. -/
def Live (c : Container) (m : Memory) : Prop := ∃ n, m.room c.storage = some n ∧
    sizeofObject * c.size ≤ n

end Container

/-- The container is left with live storage and the elements it had before. -/
structure Usable (c : Container) (m : Memory) (c' : Container) (m' : Memory) : Prop where
  live : c'.Live m'
  elements : c'.elements m' = c.elements m

/-! ## A failing resize -/

variable {M : Malloc} {fuel : Nat} {cmpFn : Object → Object → Int} {data : Object} {m m' : Memory}
    {e : Exc} {l : Coord}

variable {heap heap' : HeapT} {stack stack' : StackT} {c c' : Container} {loc : Coord} {p n k : Nat}

theorem HeapT.place_ne_raise : heap.place cmpFn data m ≠ (.raise e l, heap', m') := by
  unfold HeapT.place
  split <;> simp

theorem StackT.place_ne_raise : stack.place data m ≠ (.raise e l, stack', m') := by
  unfold StackT.place
  split_ifs <;> simp

/-- Only `Memory_resize` raises, and then no field has been assigned. -/
theorem HeapT.insertIn_raise (h : heap.insertIn M fuel cmpFn data m = (.raise e l, heap', m')) :
    heap' = heap ∧
      m.memoryResizeIn M fuel heap.storage (sizeT ((heap.size + kResizeStep) * sizeofObject))
      ⟨some "heap.c", 132⟩ = (.raise e l, m') := by
  unfold HeapT.insertIn at h
  split_ifs at h
  · split at h
    · exact absurd h HeapT.place_ne_raise
    · rename_i hr
      obtain ⟨ho, rfl, rfl⟩ : _ ∧ heap = heap' ∧ _ := by simpa using h
      exact ⟨rfl, by rw [hr, ho.1, ho.2]⟩
    · simp at h
  · exact absurd h HeapT.place_ne_raise

theorem StackT.pushIn_raise (h : stack.pushIn M fuel data m = (.raise e l, stack', m')) :
    stack' = stack ∧
      m.memoryResizeIn M fuel stack.storage (unsigned (stack.size + resizeStep) * sizeofObject)
      ⟨some "array_stack.c", 61⟩ = (.raise e l, m') := by
  unfold StackT.pushIn at h
  split_ifs at h
  · split at h
    · exact absurd h StackT.place_ne_raise
    · rename_i hr
      obtain ⟨ho, rfl, rfl⟩ : _ ∧ stack = stack' ∧ _ := by simpa using h
      exact ⟨rfl, by rw [hr, ho.1, ho.2]⟩
    · simp at h
  · exact absurd h StackT.place_ne_raise

/-- The number of bytes that a full container asks for. -/
def Container.request : Container → Nat
  | .heap h => sizeT ((h.size + kResizeStep) * sizeofObject)
  | .stack s => unsigned (s.size + resizeStep) * sizeofObject

/-- The place of the `RESIZE` in the source. -/
def Container.site : Container → Coord
  | .heap _ => ⟨some "heap.c", 132⟩
  | .stack _ => ⟨some "array_stack.c", 61⟩

theorem Container.insertIn_raise (hr : c.insertIn M fuel cmpFn data m = (.raise e l, c', m')) :
    c' = c ∧ m.memoryResizeIn M fuel c.storage c.request c.site = (.raise e l, m') := by
  cases c with
  | heap h =>
    rcases hins : h.insertIn M fuel cmpFn data m with ⟨o, h', m1⟩
    obtain ⟨rfl, rfl, rfl⟩ : o = _ ∧ Container.heap h' = c' ∧ m1 = m' := by
      simpa [Container.insertIn, hins] using hr
    obtain ⟨rfl, hres⟩ := HeapT.insertIn_raise hins
    exact ⟨rfl, hres⟩
  | stack s =>
    rcases hins : s.pushIn M fuel data m with ⟨o, s', m1⟩
    obtain ⟨rfl, rfl, rfl⟩ : o = _ ∧ Container.stack s' = c' ∧ m1 = m' := by
      simpa [Container.insertIn, hins] using hr
    obtain ⟨rfl, hres⟩ := StackT.pushIn_raise hins
    exact ⟨rfl, hres⟩

theorem Container.settles_raise
    (hr : Settles (fun fuel => c.insertIn M fuel cmpFn data m) (.raise e l, c', m')) :
    c' = c ∧ Settles (fun fuel => m.memoryResizeIn M fuel c.storage c.request c.site)
      (.raise e l, m') := by
  obtain ⟨bound, hb⟩ := hr
  have hraise := fun fuel hle => Container.insertIn_raise (some.inj (hb fuel hle))
  exact ⟨(hraise bound (Nat.le_refl _)).1, bound, fun fuel hle => congrArg some (hraise fuel hle).2⟩

/-- `memory-dev.c` leaves the block alone. -/
theorem resize_failed_dev {s : MemoryDev.Mem} (hs : (Memory.dev s).Sound)
    (hroom : (Memory.dev s).room p = some k)
    (hr : Settles (fun fuel => (Memory.dev s).memoryResizeIn M fuel p n loc)
      (.raise .memoryFailed l, m')) :
    m'.room p = some k ∧ m'.bytes = s.bytes := by
  obtain ⟨ring, hw⟩ := hs
  obtain ⟨bound, hb⟩ := hr
  have hcall := fun fuel hle => Prod.mk.inj (some.inj (hb fuel hle))
  obtain ⟨s', rfl⟩ : ∃ s', m' = .dev s' := ⟨_, (hcall bound (Nat.le_refl _)).2.symm⟩
  have hsettles : Settles (fun fuel => MemoryDev.memoryResizeIn M fuel p n loc s)
      (.raise .memoryFailed l, s') :=
    ⟨bound, fun fuel hle =>
    congrArg some (Prod.ext (hcall fuel hle).1 (Memory.dev.inj (hcall fuel hle).2))⟩
  simp only [Memory.room] at hroom
  split at hroom
  · rename_i i ho
    obtain ⟨ho', hsize, hbytes⟩ := hw.resize_failed ho hsettles
    refine ⟨?_, hbytes⟩
    simp only [Memory.room, ho', hsize]
    exact hroom
  · cases hroom

/-- `memory.c` has given the block back. -/
theorem resize_failed_production {s : MemoryProd.Mem} (hs : (Memory.production s).Sound)
    (hroom : (Memory.production s).room p = some k)
    (hr : (Memory.production s).memoryResizeIn M fuel p n loc = (.raise e l, m')) :
    m'.room p = none := by
  obtain ⟨ho, rfl⟩ := Prod.mk.inj hr
  have hreg : s.region p ≠ none := fun hnone => by
    simp [Memory.room, hnone] at hroom
  exact map_eq_none_iff.2 (MemoryProd.resize_failed hs hreg (Prod.ext ho rfl))

/-- **A failing resize.** If an insertion raises `Memory_Failed`, which only the
resize of a full container does, the container is left with live storage that
holds the elements it had before, if and only if the memory is the one of
`memory-dev.c`. -/
theorem usable_iff (M : Malloc) (cmpFn : Object → Object → Int) (data : Object) {c c' : Container}
    {m m' : Memory} {l : Coord} (hm : m.Sound) (hlive : c.Live m)
    (hr : Settles (fun fuel => c.insertIn M fuel cmpFn data m) (.raise .memoryFailed l, c', m')) :
    Usable c m c' m' ↔ m.IsDev := by
  obtain ⟨rfl, hres⟩ := Container.settles_raise hr
  obtain ⟨k, hroom, hsize⟩ := hlive
  cases m with
  | dev s =>
    obtain ⟨hroom', hbytes⟩ := resize_failed_dev hm hroom hres
    refine iff_of_true ⟨⟨k, hroom', hsize⟩, ?_⟩ trivial
    rw [Container.elements, Container.elements, hbytes]
    rfl
  | production s =>
    obtain ⟨bound, hb⟩ := hres
    have hgone := resize_failed_production hm hroom (some.inj (hb bound (Nat.le_refl _)))
    refine iff_of_false (fun husable => ?_) id
    obtain ⟨k', hk', -⟩ := husable.live
    exact absurd (hgone.symm.trans hk') (by simp)

/-- A `malloc` that returns NULL. -/
def noMemory : Malloc where
  pick _ _ _ := none
  sound h := by cases h

/-- `Memory_alloc` has been called once, for 500 objects. -/
def devMemory : MemoryDev.Mem := (MemoryDev.run .bump [.alloc 4000 (MemoryDev.here 1)]).2

/-- The same call of the production version. -/
def prodMemory : MemoryProd.Mem := (MemoryProd.memoryAlloc .bump 4000 (MemoryProd.here 1) .init).2

/-- A stack of 500 objects in the block at `storage`. -/
def fullStack (storage : Nat) : Container := .stack ⟨storage, storage + 4000, 500⟩

/-- With `memory-dev.c` a stack of 500 objects survives. -/
theorem usable_dev : ∃ l c' m',
    Settles (fun fuel => (fullStack 4112).insertIn noMemory fuel (fun _ _ => 0) (fun _ => 0)
      (.dev devMemory)) (.raise .memoryFailed l, c', m') ∧
      Usable (fullStack 4112) (.dev devMemory) c' m' := by
  have hsmall : ∀ c ∈ [MemoryDev.Call.alloc 4000 (MemoryDev.here 1)], MemoryDev.Small
      c.request := by
    simp only [List.mem_singleton, forall_eq]
    decide
  obtain ⟨-, ring, tab, ht⟩ := MemoryDev.run_tracks .bump hsmall
  have hr : Settles (fun fuel => (fullStack 4112).insertIn noMemory fuel (fun _ _ => 0) (fun _ => 0)
      (.dev devMemory)) (.raise .memoryFailed ⟨some "array_stack.c", 61⟩, fullStack 4112,
        .dev { devMemory with
          heap := { devMemory.heap with calls := devMemory.heap.calls + 1 } }) := by
    refine ⟨2, fun fuel hle => ?_⟩
    obtain ⟨fuel, rfl⟩ := Nat.exists_eq_add_of_le' hle
    rfl
  have hsound : (Memory.dev devMemory).Sound := ⟨ring, ht.sound.wired⟩
  have hlive : (fullStack 4112).Live (.dev devMemory) := ⟨4000, rfl, by decide⟩
  exact ⟨_, _, _, hr, (usable_iff noMemory _ _ hsound hlive hr).2 trivial⟩

/-- With `memory.c` the storage of the stack has been freed. -/
theorem dangling_production : ∃ l c' m',
    Settles (fun fuel => (fullStack 16).insertIn noMemory fuel (fun _ _ => 0) (fun _ => 0)
      (.production prodMemory)) (.raise .memoryFailed l, c', m') ∧
      (fullStack 16).Live (.production prodMemory) ∧
      ¬ Usable (fullStack 16) (.production prodMemory) c' m' := by
  refine ⟨⟨some "array_stack.c", 61⟩, fullStack 16, .production ⟨⟨[], 2⟩, prodMemory.bytes⟩,
    .of_eq fun fuel => rfl, ⟨4000, rfl, by decide⟩, fun husable => ?_⟩
  obtain ⟨n, hn, -⟩ := husable.live
  cases hn

end Resize

end CLangProject

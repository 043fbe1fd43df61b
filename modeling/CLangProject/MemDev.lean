import CLangProject.Extent
import CLangProject.Linked
import CLangProject.Outcome

/-!
# The checked allocator of `memory-dev.c`

A block is described by a `Descriptor`. The descriptors of the blocks ever
handed out hang in the hash table `htab`, chained by `link`; `Memory_free`
never takes one out, it links the descriptor by `free` into the circular
list that starts at the static descriptor `freelist`. `Memory_alloc` walks
that list and cuts the request off the back of the first block with more
space than needed.

A descriptor is known by a serial number, 0 for `freelist`: the pools of
`NDESCRIPTORS` descriptors are used from front to back and never given
back, so `avail` is the number of the next unused one. Pointers to user
memory are addresses, `size_t` is arithmetic modulo `2 ^ 64`.

The two loops take fuel; running out of it is the outcome `stuck`. The
`Ensure`s of the source check a descriptor after the branch that throws
when there is none; they cannot fail and are left out.
-/

namespace CLangProject

open Function

namespace MemoryDev

/-! ## Exceptions -/

inductive Exc where
  | memoryFailed | assertFailed | preconditionFailed
deriving Repr, DecidableEq

/-- `__FILE__` and `__LINE__` inside `memory-dev.c`. -/
def here (line : Nat) : Coord := ⟨some "memory-dev.c", line⟩

/-! ## State -/

/-- `sizeof (union align)`. -/
def alignSize : Nat := 16

def totalBuckets : Nat := 2048

def nDescriptors : Nat := 512

/-- `sizeof (struct descriptor)`. -/
def descriptorSize : Nat := 48

def nalloc : Nat := ((totalBuckets * 2 + alignSize - 1) / alignSize) * alignSize

def sizeT (n : Nat) : Nat := n % 2 ^ 64

def hash (p : Nat) : Nat := (p >>> 3) &&& (totalBuckets - 1)

structure Descriptor where
  free : Option Nat
  link : Option Nat
  ptr : Nat
  size : Nat
  file : Option String
  line : Nat
deriving Repr, DecidableEq

/-- A static object of C: all fields zero. -/
def Descriptor.zero : Descriptor := ⟨none, none, 0, 0, none, 0⟩

structure Mem where
  desc : Nat → Descriptor
  htab : Nat → Option Nat
  avail : Nat
  nleft : Nat
  heap : CHeap
  bytes : Nat → UInt8

def Mem.init : Mem where
  desc := update (fun _ => .zero) 0 { Descriptor.zero with free := some 0 }
  htab := fun _ => none
  avail := 1
  nleft := 0
  heap := CHeap.init
  bytes := fun _ => 0

namespace Mem

def modify (i : Nat) (f : Descriptor → Descriptor) (s : Mem) : Mem :=
  { s with desc := update s.desc i (f (s.desc i)) }

def setFree (i : Nat) (p : Option Nat) (s : Mem) : Mem := s.modify i ({ · with free := p })

def setLink (i : Nat) (p : Option Nat) (s : Mem) : Mem := s.modify i ({ · with link := p })

def setSize (i : Nat) (n : Nat) (s : Mem) : Mem := s.modify i ({ · with size := n })

def setBucket (h : Nat) (p : Option Nat) (s : Mem) : Mem := { s with htab := update s.htab h p }

def memset (p : Nat) (b : UInt8) (n : Nat) (s : Mem) : Mem :=
  { s with bytes := fun a => if p ≤ a ∧ a < p + n then b else s.bytes a }

def memcpy (dst src n : Nat) (s : Mem) : Mem :=
  { s with bytes := fun a =>
      if dst ≤ a ∧ a < dst + n then s.bytes (src + (a - dst)) else s.bytes a }

end Mem

/-! ## `__find` and `__dalloc` -/

/-- The `while` of `__find`; `none` when the fuel runs out. -/
def findLoop (s : Mem) (ptr : Nat) : Nat → Option Nat → Option (Option Nat)
  | 0, _ => none
  | _ + 1, none => some none
  | fuel + 1, some i =>
    if (s.desc i).ptr ≠ ptr then findLoop s ptr fuel (s.desc i).link else some (some i)

def find (s : Mem) (ptr : Nat) : Option (Option Nat) :=
  findLoop s ptr (s.avail + 1) (s.htab (hash ptr))

/-- The pool of descriptors is filled up when it is empty. The flag is
`false` when `malloc` returned NULL. -/
def refill (M : Malloc) (s : Mem) : Bool × Mem :=
  if s.nleft = 0 then
    match M.malloc (nDescriptors * descriptorSize) s.heap with
    | (some _, H) => (true, { s with heap := H, nleft := nDescriptors })
    | (none, H) => (false, { s with heap := H })
  else (true, s)

def dalloc (M : Malloc) (ptr size : Nat) (loc : Coord) (s : Mem) : Outcome Exc (Option Nat) × Mem :=
  if ptr = 0 then (.raise .preconditionFailed (here 70), s)
  else
    match refill M s with
    | (false, s) => (.ok none, s)
    | (true, s) =>
      (.ok (some s.avail),
        { s with
          desc := update s.desc s.avail ⟨none, none, ptr, size, loc.file, loc.line⟩
          nleft := s.nleft - 1
          avail := s.avail + 1 })

/-! ## The interface -/

/-- The request rounded up to a multiple of the alignment. -/
def roundUp (n : Nat) : Nat := sizeT (n + alignSize - 1) / alignSize * alignSize

/-- The descriptor `k` of a block just cut off enters the hash table. -/
def enter (ptr k : Nat) (s : Mem) : Mem :=
  (s.setLink k (s.htab (hash ptr))).setBucket (hash ptr) (some k)

/-- The descriptor `k` goes to the front of the free list. -/
def release (k : Nat) (s : Mem) : Mem := (s.setFree k (s.desc 0).free).setFree 0 (some k)

/-- The `for` of `Memory_alloc`, at `desc`, for `n` bytes already
rounded. -/
def allocLoop (M : Malloc) (n : Nat) (loc : Coord) : Nat → Option Nat → Mem → Outcome Exc Nat × Mem
  | 0, _, s => (.stuck, s)
  | _ + 1, none, s => (.raise .assertFailed (here 160), s)
  | fuel + 1, some i, s =>
    if n < (s.desc i).size then
      let ptr := (s.desc i).ptr + ((s.desc i).size - n)
      match dalloc M ptr n loc (s.setSize i ((s.desc i).size - n)) with
      | (.ok (some k), s) => (.ok ptr, enter ptr k s)
      | (.ok none, s) => (.throwAt .memoryFailed loc (here 128), s)
      | (.raise e l, s) => (.raise e l, s)
      | (.stuck, s) => (.stuck, s)
    else if i = 0 then
      match M.malloc (sizeT (n + nalloc)) s.heap with
      | (none, H) => (.throwAt .memoryFailed loc (here 147), { s with heap := H })
      | (some ptr, H) =>
        match dalloc M ptr (sizeT (n + nalloc)) (here 139) { s with heap := H } with
        | (.ok (some k), s) =>
          let s := release k s
          allocLoop M n loc fuel (s.desc i).free s
        | (.ok none, s) =>
          (.throwAt .memoryFailed loc (here 147), { s with heap := s.heap.free ptr })
        | (.raise e l, s) => (.raise e l, s)
        | (.stuck, s) => (.stuck, s)
    else allocLoop M n loc fuel (s.desc i).free s

/-- `Memory_alloc`, with a bound for the steps of its loop. -/
def memoryAllocIn (M : Malloc) (fuel nbytes : Nat) (loc : Coord) (s : Mem) :
    Outcome Exc Nat × Mem :=
  if nbytes = 0 then (.raise .preconditionFailed (here 102), s)
  else allocLoop M (roundUp nbytes) loc fuel (s.desc 0).free s

def memoryCallocIn (M : Malloc) (fuel count nbytes : Nat) (loc : Coord) (s : Mem) :
    Outcome Exc Nat × Mem :=
  if count = 0 then (.raise .preconditionFailed (here 167), s)
  else if nbytes = 0 then (.raise .preconditionFailed (here 168), s)
  else
    match memoryAllocIn M fuel (sizeT (count * nbytes)) loc s with
    | (.ok ptr, s) => (.ok ptr, s.memset ptr 0 (sizeT (count * nbytes)))
    | (o, s) => (o, s)

/-- One walk along the free list is enough, unless the request wraps. -/
def memoryAlloc (M : Malloc) (nbytes : Nat) (loc : Coord) (s : Mem) : Outcome Exc Nat × Mem :=
  memoryAllocIn M (s.avail + 2) nbytes loc s

def memoryCalloc (M : Malloc) (count nbytes : Nat) (loc : Coord) (s : Mem) :
    Outcome Exc Nat × Mem :=
  memoryCallocIn M (s.avail + 2) count nbytes loc s

/-- The test of `Memory_resize` and `Memory_free`: the descriptor of a live
block, `some none` when the address is misaligned, unknown or freed. -/
def owner (s : Mem) (ptr : Nat) : Option (Option Nat) :=
  if ptr % alignSize ≠ 0 then some none
  else
    match find s ptr with
    | some (some i) => if (s.desc i).free ≠ none then some none else some (some i)
    | r => r

def memoryFree (ptr : Nat) (loc : Coord) (s : Mem) : Outcome Exc Unit × Mem :=
  if ptr = 0 then (.ok (), s)
  else
    match owner s ptr with
    | none => (.stuck, s)
    | some none => (.raise .assertFailed loc, s)
    | some (some i) => (.ok (), release i s)

def memoryResizeIn (M : Malloc) (fuel ptr nbytes : Nat) (loc : Coord) (s : Mem) :
    Outcome Exc Nat × Mem :=
  if ptr = 0 then (.raise .preconditionFailed (here 179), s)
  else if nbytes = 0 then (.raise .preconditionFailed (here 180), s)
  else
    match owner s ptr with
    | none => (.stuck, s)
    | some none => (.raise .assertFailed loc, s)
    | some (some i) =>
      match memoryAllocIn M fuel nbytes loc s with
      | (.ok newptr, s) =>
        match memoryFree ptr loc
            (s.memcpy newptr ptr (min nbytes (s.desc i).size)) with
        | (.ok (), s) => (.ok newptr, s)
        | (.raise e l, s) => (.raise e l, s)
        | (.stuck, s) => (.stuck, s)
      | (o, s) => (o, s)

def memoryResize (M : Malloc) (ptr nbytes : Nat) (loc : Coord) (s : Mem) : Outcome Exc Nat × Mem :=
  memoryResizeIn M (s.avail + 2) ptr nbytes loc s

end MemoryDev

end CLangProject

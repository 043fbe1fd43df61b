import CLangProject.Extent
import CLangProject.Outcome

/-!
# Arenas: `arena.c`

An arena is a `struct arena` at some address; the chunk it allocates from
starts with a copy of the `struct arena` as it was before the chunk was
taken, so that `prev` chains the chunks and `Arena_free` can walk back.
Freed chunks are kept on `freechunks`, at most `THRESHOLD` of them.

The loop of `Arena_alloc` that takes chunks is guarded by `space_left > 0`.
A new arena has `avail` and `limit` both NULL, so there `space_left` is 0:
the loop is skipped, NULL is returned, and `avail` moves ahead of `limit`.
`blocks_in_bounds_iff` draws the consequence for whole runs: the blocks are
in bounds only as long as no block is handed out at all.

NULL is the address 0. Pointer arithmetic wraps modulo `2 ^ 64`, and
`space_left` is the difference read as a signed 64-bit number.
-/

namespace CLangProject

open List Function

namespace Arena

/-! ## The model -/

inductive Exc where
  | arenaNewFailed | arenaFailed | preconditionFailed | postconditionFailed
deriving Repr, DecidableEq

/-- `__FILE__` and `__LINE__` inside `arena.c`. -/
def here (line : Nat) : Coord := ⟨some "arena.c", line⟩

def threshold : Int := 10

/-- `sizeof (union align)`. -/
def alignSize : Nat := 16

/-- `sizeof (union header)`: the union holds a pointer, not the
`struct arena` that is stored there. -/
def headerSize : Nat := 16

/-- `struct arena`. -/
structure Rec where
  prev : Nat
  avail : Nat
  limit : Nat
deriving Repr, DecidableEq

/-- `sizeof (struct arena)`. -/
def recSize : Nat := 24

/-- The `struct arena`s in memory, `freechunks` and `nfree`. -/
structure State where
  mem : Nat → Option Rec
  freechunks : Nat
  nfree : Int
  heap : CHeap

def State.init : State := ⟨fun _ => none, 0, 0, .init⟩

def State.set (a : Nat) (A : Rec) (s : State) : State := { s with mem := update s.mem a (some A) }

def sizeT (n : Nat) : Nat := n % 2 ^ 64

def roundUp (n : Nat) : Nat := sizeT (n + alignSize - 1) / alignSize * alignSize

/-- `arena->limit - arena->avail` as a `long`. -/
def Rec.spaceLeft (A : Rec) : Int := ((A.limit : Int) - (A.avail : Int)).bmod (2 ^ 64)

def arenaNew (M : Malloc) (s : State) : Outcome Exc Nat × State :=
  match M.malloc recSize s.heap with
  | (none, H) => (.raise .arenaNewFailed (here 50), { s with heap := H })
  | (some a, H) => (.ok a, { s with heap := H }.set a ⟨0, 0, 0⟩)

/-- A chunk for `n` bytes and its limit: the first one of `freechunks`, of
whatever size, or a new one. -/
def takeChunk (M : Malloc) (n : Nat) (loc : Coord) (s : State) : Outcome Exc (Nat × Nat) × State :=
  if s.freechunks ≠ 0 then
    match s.mem s.freechunks with
    | none => (.stuck, s)
    | some F =>
      (.ok (s.freechunks, F.limit), { s with freechunks := F.prev, nfree := s.nfree - 1 })
  else
    let m := sizeT (headerSize + n + 10 * 1024)
    match M.malloc m s.heap with
    | (none, H) => (.throwAt .arenaFailed loc (here 85), { s with heap := H })
    | (some ptr, H) => (.ok (ptr, sizeT (ptr + m)), { s with heap := H })

/-- The `while` of `Arena_alloc`, for `n` bytes already rounded. -/
def allocLoop (M : Malloc) (a n : Nat) (loc : Coord) : Nat → State → Outcome Exc Unit × State
  | 0, s => (.stuck, s)
  | fuel + 1, s =>
    match s.mem a with
    | none => (.stuck, s)
    | some A =>
      if 0 < A.spaceLeft ∧ A.spaceLeft < n then
        match takeChunk M n loc s with
        | (.ok (ptr, limit), s) =>
          allocLoop M a n loc fuel ((s.set ptr A).set a ⟨ptr, sizeT (ptr + headerSize), limit⟩)
        | (.raise e l, s) => (.raise e l, s)
        | (.stuck, s) => (.stuck, s)
      else (.ok (), s)

/-- Every pass of the loop takes a chunk of the free list or address space,
so the fuel does not run out. -/
def arenaAlloc (M : Malloc) (a nbytes : Nat) (loc : Coord) (s : State) : Outcome Exc Nat × State :=
  if a = 0 then (.raise .preconditionFailed (here 61), s)
  else if nbytes = 0 then (.raise .preconditionFailed (here 62), s)
  else
    match allocLoop M a (roundUp nbytes) loc (2 ^ 64) s with
    | (.ok (), s) =>
      match s.mem a with
      | none => (.stuck, s)
      | some A =>
        let avail := sizeT (A.avail + roundUp nbytes)
        (.ok (sizeT (avail + 2 ^ 64 - roundUp nbytes)), s.set a { A with avail := avail })
    | (.raise e l, s) => (.raise e l, s)
    | (.stuck, s) => (.stuck, s)

/-- The `while` of `Arena_free`. -/
def freeLoop (a : Nat) : Nat → State → Outcome Exc Unit × State
  | 0, s => (.stuck, s)
  | fuel + 1, s =>
    match s.mem a with
    | none => (.stuck, s)
    | some A =>
      if A.prev = 0 then (.ok (), s)
      else
        match s.mem A.prev with
        | none => (.stuck, s)
        | some tmp =>
          if s.nfree < threshold then
            freeLoop a fuel (({ s with freechunks := A.prev, nfree := s.nfree + 1 }.set A.prev
                { tmp with prev := s.freechunks, limit := A.limit }).set a tmp)
          else
            freeLoop a fuel
              ({ s with
                heap := s.heap.free A.prev
                mem := update s.mem A.prev none }.set a tmp)

/-- Every chunk in the chain of the arena is a region held. -/
def arenaFree (a : Nat) (s : State) : Outcome Exc Unit × State :=
  if a = 0 then (.raise .preconditionFailed (here 131), s)
  else
    match freeLoop a (s.heap.held.length + 1) s with
    | (.ok (), s) =>
      match s.mem a with
      | none => (.stuck, s)
      | some A =>
        if A.limit ≠ 0 then (.raise .postconditionFailed (here 149), s)
        else if A.avail ≠ 0 then (.raise .postconditionFailed (here 150), s)
        else (.ok (), s)
    | (.raise e l, s) => (.raise e l, s)
    | (.stuck, s) => (.stuck, s)

/-! ## Runs -/

inductive Call where
  | new
  | alloc (arena nbytes : Nat) (loc : Coord)
  | free (arena : Nat)
deriving Repr, DecidableEq

def exec (M : Malloc) (s : State) : Call → Outcome Exc Nat × State
  | .new => arenaNew M s
  | .alloc a n loc => arenaAlloc M a n loc s
  | .free a => (arenaFree a s).map (Outcome.map fun _ => 0) id

/-- A call, how it ended, and the state it left. -/
structure Step where
  call : Call
  outcome : Outcome Exc Nat
  after : State

/-- The run of the calls from the initial state, the latest call first. -/
def run (M : Malloc) : List Call → List Step × State
  | [] => ([], .init)
  | c :: calls =>
    let (steps, s) := run M calls
    let (o, s') := exec M s c
    (⟨c, o, s'⟩ :: steps, s')

/-- The arenas created. -/
def arenas : List Step → List Nat
  | [] => []
  | ⟨.new, .ok a, _⟩ :: steps => a :: arenas steps
  | _ :: steps => arenas steps

/-- The blocks handed out by each arena since its last `Arena_free`. -/
def blocks : List Step → List (Nat × Extent)
  | [] => []
  | ⟨.alloc a n _, .ok p, _⟩ :: steps => (a, ⟨p, n⟩) :: blocks steps
  | ⟨.free a, _, _⟩ :: steps => (blocks steps).filter fun b => b.1 ≠ a
  | _ :: steps => blocks steps

/-- `Arena_alloc` and `Arena_free` are called with NULL or with an arena
from `Arena_new`. -/
def Valid : List Step → Prop
  | [] => True
  | ⟨.new, _, _⟩ :: steps => Valid steps
  | ⟨.alloc a _ _, _, _⟩ :: steps => (a = 0 ∨ a ∈ arenas steps) ∧ Valid steps
  | ⟨.free a, _, _⟩ :: steps => (a = 0 ∨ a ∈ arenas steps) ∧ Valid steps

/-- The block of `n` bytes at `p`, handed out by the last of the steps
before which `steps` were made, is not NULL, lies inside one chunk behind
its header, and overlaps no other block. -/
def BlockOk (steps : List Step) (s : State) (p n : Nat) : Prop := p ≠ 0
    ∧ (∃ r ∈ s.heap.held, r.base ∉ arenas steps ∧ r.base + headerSize ≤ p ∧ p + n ≤ r.base + r.size)
    ∧ ∀ b ∈ blocks steps, (Extent.mk p n).Apart b.2

/-- Every block ever handed out was in bounds. -/
def InBounds : List Step → Prop
  | [] => True
  | ⟨.alloc _ n _, .ok p, s⟩ :: steps => BlockOk steps s p n ∧ InBounds steps
  | _ :: steps => InBounds steps

/-! ## New arenas stay empty -/

/-- Every arena is as `Arena_new` made it. -/
def Untouched (steps : List Step) (s : State) : Prop := ∀ a ∈ arenas steps, s.mem a = some ⟨0, 0, 0⟩

variable {a n : Nat} {s : State}

theorem arenaAlloc_refused (M : Malloc) (loc : Coord) (s : State) (h : a = 0 ∨ n = 0) :
    ∃ l, arenaAlloc M a n loc s = (.raise .preconditionFailed l, s) := by
  unfold arenaAlloc
  by_cases ha : a = 0
  · exact ⟨here 61, by rw [if_pos ha]⟩
  · exact ⟨here 62, by rw [if_neg ha, if_pos (h.resolve_left ha)]⟩

/-- The first allocation from a new arena returns NULL. -/
theorem arenaAlloc_untouched (M : Malloc) (loc : Coord) (ha : a ≠ 0) (hn : n ≠ 0)
    (h : s.mem a = some ⟨0, 0, 0⟩) : (arenaAlloc M a n loc s).1 = .ok 0 := by
  have hloop : allocLoop M a (roundUp n) loc (2 ^ 64) s = (.ok (), s) := by
    rw [show (2 ^ 64 : Nat) = 18446744073709551615 + 1 by rfl, allocLoop, h]
    simp [Rec.spaceLeft]
  have hround : roundUp n < 2 ^ 64 := by
    unfold roundUp sizeT alignSize
    omega
  unfold arenaAlloc
  rw [if_neg ha, if_neg hn, hloop]
  simp only [h]
  congr 1
  unfold sizeT
  omega

theorem arenaFree_untouched (ha : a ≠ 0) (h : s.mem a = some ⟨0, 0, 0⟩) :
    arenaFree a s = (.ok (), s) := by
  unfold arenaFree
  rw [if_neg ha, freeLoop]
  simp [h]

theorem arenaNew_untouched (M : Malloc) {steps : List Step} (h : Untouched steps s) :
    Untouched (⟨.new, (arenaNew M s).1, (arenaNew M s).2⟩ :: steps) (arenaNew M s).2 := by
  unfold arenaNew
  rcases M.malloc_cases recSize s.heap with ⟨a, ha, -⟩ | ha
  · rw [ha]
    intro b hb
    rcases mem_cons.mp hb with rfl | hb
    · simp [State.set]
    · by_cases hba : b = a
      · simp [State.set, hba]
      · simpa [State.set, hba] using h b hb
  · rw [ha]
    exact h

/-- As long as the blocks are in bounds no block has been handed out, and
every arena is untouched. -/
theorem InBounds.untouched (M : Malloc) {calls : List Call} (hvalid : Valid (run M calls).1)
    (h : InBounds (run M calls).1) :
    (∀ a n loc, Call.alloc a n loc ∈ calls → a = 0 ∨ n = 0)
      ∧ Untouched (run M calls).1 (run M calls).2 := by
  induction calls with
  | nil => exact ⟨by simp, by simp [run, Untouched, arenas]⟩
  | cons c calls ih =>
    cases c with
    | new =>
      obtain ⟨hrefused, hun⟩ := ih hvalid h
      exact ⟨fun a n loc hmem => hrefused a n loc (by simpa using hmem), arenaNew_untouched M hun⟩
    | free a =>
      obtain ⟨ha, hvalid⟩ := hvalid
      obtain ⟨hrefused, hun⟩ := ih hvalid h
      refine ⟨fun a n loc hmem => hrefused a n loc (by simpa using hmem), ?_⟩
      have hsame : (arenaFree a (run M calls).2).2 = (run M calls).2 := by
        by_cases h0 : a = 0
        · simp [arenaFree, h0]
        · rw [arenaFree_untouched h0 (hun a (ha.resolve_left h0))]
      change Untouched (run M calls).1 (arenaFree a (run M calls).2).2
      rw [hsame]
      exact hun
    | alloc a n loc =>
      obtain ⟨ha, hvalid⟩ := hvalid
      by_cases hcall : a = 0 ∨ n = 0
      · obtain ⟨l, hl⟩ := arenaAlloc_refused M loc (run M calls).2 hcall
        simp only [run, exec, hl] at h ⊢
        obtain ⟨hrefused, hun⟩ := ih hvalid h
        refine ⟨fun b k loc' hmem => ?_, hun⟩
        rcases mem_cons.mp hmem with heq | hmem
        · cases heq
          exact hcall
        · exact hrefused b k loc' hmem
      · -- the first call that is not refused returns NULL
        exfalso
        obtain ⟨h0, hn⟩ := not_or.mp hcall
        have hrest : InBounds (run M calls).1 := by
          simp only [run, exec] at h
          generalize (arenaAlloc M a n loc (run M calls).2).1 = o at h
          cases o with
          | ok p => exact h.2
          | raise e l => exact h
          | stuck => exact h
        have hnull := arenaAlloc_untouched M loc h0 hn ((ih hvalid hrest).2 a (ha.resolve_left h0))
        simp only [run, exec, hnull] at h
        exact h.1.1 rfl

/-- **Arena blocks.** The blocks that a run hands out are in bounds if and
only if the run hands out none: the first `Arena_alloc` that gets past its
`Require`s returns NULL. -/
theorem blocks_in_bounds_iff (M : Malloc) {calls : List Call} (hvalid : Valid (run M calls).1) :
    InBounds (run M calls).1 ↔ ∀ a n loc, Call.alloc a n loc ∈ calls → a = 0 ∨ n = 0 := by
  refine ⟨fun h => (h.untouched M hvalid).1, fun h => ?_⟩
  clear hvalid
  induction calls with
  | nil => trivial
  | cons c calls ih =>
    have hrest := ih fun a n loc hmem => h a n loc (mem_cons_of_mem _ hmem)
    cases c with
    | new => exact hrest
    | free a => exact hrest
    | alloc a n loc =>
      obtain ⟨l, hl⟩ := arenaAlloc_refused M loc (run M calls).2 (h a n loc mem_cons_self)
      simp only [run, exec, hl]
      exact hrest

/-- A new arena is freed, and 0 bytes are asked of it. -/
theorem blocks_in_bounds_refused : InBounds (run .bump [.alloc 16 0 (here 1), .free 16, .new]).1 :=
  (@blocks_in_bounds_iff .bump [.alloc 16 0 (here 1), .free 16, .new]
    ⟨by decide, by decide, trivial⟩).mpr (by simp; omega)

/-- The first byte asked of a new arena. -/
theorem first_block_not_in_bounds : Valid (run .bump [.alloc 16 1 (here 1), .new]).1
      ∧ ¬ InBounds (run .bump [.alloc 16 1 (here 1), .new]).1 :=
  ⟨⟨by decide, trivial⟩, fun h => h.1.1 rfl⟩

end Arena

end CLangProject

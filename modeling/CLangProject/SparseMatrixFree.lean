import CLangProject.MemDevRun
import CLangProject.SparseMatrixClear

/-!
# Sparse matrices: the release of nodes

`__free_matrix_node` gets the address of the variable that points to the node, and passes this
address itself to `Memory_free`. In the checked build that is an address that the allocator has not
handed out. So a run of puts and clears gets by only as long as nothing is released, that is, as
long as no cell with a node is put or cleared.
-/

namespace CLangProject.SparseMatrix

open List Option
open MemoryDev (Small Block)

variable {ο : Type}

/-! ## The checked allocator -/

/-- `sizeof (struct matrix_node)`. -/
def nodeSize : Nat := 48

def here (line : Nat) : Coord := ⟨some "sparse_matrix.c", line⟩

/-- The calls of the allocator so far, the latest one first. -/
abbrev Requests := {calls : List MemoryDev.Call // ∀ c ∈ calls, Small c.request}

def Requests.mem (M : Malloc) (s : Requests) : MemoryDev.Mem := (MemoryDev.run M s.1).2

def Requests.live (M : Malloc) (s : Requests) : List Nat :=
  (MemoryDev.live (MemoryDev.run M s.1).1).map Block.ptr

def Requests.alloc (s : Requests) : Requests :=
  ⟨.alloc nodeSize (here 34) :: s.1, forall_mem_cons.2 ⟨by decide, s.2⟩⟩

def Requests.free (s : Requests) (ptr : Nat) : Requests :=
  ⟨.free ptr (here 51) :: s.1, forall_mem_cons.2 ⟨show Small 0 by decide, s.2⟩⟩

/-- `NEW` in the checked build. -/
def newNode (M : Malloc) (s : Requests) : Option (Nat × Requests) :=
  match (MemoryDev.memoryAlloc M nodeSize (here 34) (s.mem M)).1 with
  | .ok a => some (a, s.alloc)
  | _ => none

theorem live_newNode {M : Malloc} {s s' : Requests} {a : Nat} (hnew : newNode M s = some (a, s')) :
    s' = s.alloc ∧ s'.live M = a :: s.live M := by
  cases halloc : MemoryDev.memoryAlloc M nodeSize (here 34) (s.mem M) with
  | mk o mem =>
    cases o with
    | ok b =>
      simp only [newNode, halloc, some.injEq, Prod.mk.injEq] at hnew
      obtain ⟨rfl, rfl⟩ := hnew
      have hexec : MemoryDev.exec M (MemoryDev.run M s.1).2 (.alloc nodeSize (here 34)) =
          (.ok (some b), mem) := by
        rw [MemoryDev.exec, show MemoryDev.memoryAlloc M nodeSize (here 34)
          (MemoryDev.run M s.1).2 = _ from halloc]
        rfl
      have hrun : (MemoryDev.run M s.alloc.1).1 =
          (.alloc nodeSize (here 34),
              (MemoryDev.exec M (MemoryDev.run M s.1).2 (.alloc nodeSize (here 34))).1) ::
            (MemoryDev.run M s.1).1 := rfl
      refine ⟨rfl, ?_⟩
      rw [Requests.live, hrun, hexec, MemoryDev.live_of_gives_none rfl]
      rfl
    | _ => simp [newNode, halloc] at hnew

def checked (M : Malloc) : Allocator Requests where
  new := newNode M
  live s := {a | a ∈ s.live M}
  new_notMem {s a s'} hnew := by
    obtain ⟨-, ring, tab, htracks⟩ := MemoryDev.run_tracks M s'.2
    have hnodup : (s'.live M).Nodup := htracks.live_nodup
    rw [(live_newNode hnew).2] at hnodup
    exact (nodup_cons.1 hnodup).1
  live_new hnew := by
    rw [(live_newNode hnew).2]
    ext b
    exact mem_cons

/-! ## Runs -/

inductive MatrixCall (ο : Type) where
  | put (q : Put ο)
  | clear (row col : Int)

/-- The state when the call comes to its end, and the variable whose address it passes on. -/
def MatrixCall.exec {σ : Type} (A : Allocator σ) (h fuel : Nat) (st : State σ ο) :
    MatrixCall ο → Option (State σ ο × Option Local)
  | .put q => SparseMatrix.put A fuel st h q.row q.col q.value
  | .clear row col => do
    let (st, var, _) ← SparseMatrix.clear A fuel st h row col
    some (st, var)

/-- No node leads to `a`. -/
def Unlinked (m : Cells (Node ο)) (a : Nat) : Prop := ∀ b d, b ≠ a → nextOf m d b ≠ some a ∧
    prevOf m d b ≠ some a

/-- Every call has a result, and if it passes a pointer to `Memory_free`, this is the address of a
node that is not linked any more, and `Memory_free` returns. The number with a call is the address
of its variable. -/
def FreesNodes (M : Malloc) (h : Nat) : List (MatrixCall ο × Nat) → State Requests ο → Prop
  | [], _ => True
  | (c, slot) :: calls, st => ∃ st' var, Ends (c.exec (checked M) h · st) (st', var) ∧
      match var with
      | none => FreesNodes M h calls st'
      | some _ => st'.nodes slot ≠ none ∧ slot ∈ st'.alloc.live M ∧ Unlinked st'.nodes slot ∧
          (MemoryDev.memoryFree slot (here 51) (st'.alloc.mem M)).1 = .ok () ∧
          FreesNodes M h calls ⟨st'.alloc.free slot, Function.update st'.nodes slot none⟩

/-- The variables of the calls are objects of their own, not at the address of any block in use. -/
def SlotsApart (M : Malloc) (h : Nat) : List (MatrixCall ο × Nat) → State Requests ο → Prop
  | [], _ => True
  | (c, slot) :: calls, st => slot ≠ 0 ∧ ∀ st' var, Ends (c.exec (checked M) h · st) (st', var) →
      slot ∉ st'.alloc.live M ∧ SlotsApart M h calls st'

/-- No call is about a cell with a value. -/
def Vacant : (hist : List (Put ο)) → List (MatrixCall ο) → Prop
  | _, [] => True
  | hist, .put q :: calls => lastPut hist q.row q.col = none ∧ Vacant (q :: hist) calls
  | hist, .clear row col :: calls => lastPut hist row col = none ∧ Vacant hist calls

def MatrixCall.InRange : MatrixCall ο → Prop
  | .put q => 0 ≤ q.row ∧ 0 ≤ q.col
  | .clear row col => 0 ≤ row ∧ 0 ≤ col

def MatrixCall.puts : List (MatrixCall ο) → List (Put ο)
  | [] => []
  | .put q :: calls => q :: puts calls
  | .clear _ _ :: calls => puts calls

section Step

variable {M : Malloc} {st st' : State Requests ο} {h n slot : Nat} {r k : Int}
    {hist : List (Put ο)} {N : Set Nat}
  {L : Axis → Int → List Nat} {var : Option Local} {calls : List (MatrixCall ο × Nat)}

/-- A call that passes on the address of its variable does not get by. -/
theorem not_freesNodes {c : MatrixCall ο}
    (hends : ∀ st' var, Ends (c.exec (checked M) h · st) (st', var) → var ≠ none)
    (hslots : SlotsApart M h ((c, slot) :: calls) st) :
    ¬FreesNodes M h ((c, slot) :: calls) st := by
  rintro ⟨st', var, hexec, hfrees⟩
  cases var with
  | none => exact hends st' none hexec rfl
  | some v => exact (hslots.2 st' _ hexec).1 hfrees.2.1

/-- A call that releases nothing. -/
theorem freesNodes_cons_iff {c : MatrixCall ο}
    (hends : Ends (c.exec (checked M) h · st) (st', none)) :
    FreesNodes M h ((c, slot) :: calls) st ↔ FreesNodes M h calls st' := by
  constructor
  · rintro ⟨st'', var, hexec, hfrees⟩
    obtain ⟨rfl, rfl⟩ := Prod.mk.inj (hends.unique hexec)
    exact hfrees
  · exact fun hfrees => ⟨st', none, hends, hfrees⟩

theorem Holds.exec_clear_of_some (hh : Holds (checked M) st h hist N L) (hr : 0 ≤ r) (hk : 0 ≤ k)
    (hsome : lastPut hist r k ≠ none)
    (hends : Ends ((MatrixCall.clear r k).exec (checked M) h · st) (st', var)) :
    var ≠ none := by
  obtain ⟨x, pre, suf, -, -, -, -, bound, hclear⟩ := hh.clear_of_some hr hk hsome
  obtain ⟨bound', hends⟩ := hends
  have hres := hends (max bound bound') (Nat.le_max_right ..)
  simp only [MatrixCall.exec, hclear _ (Nat.le_max_left ..), bind_eq_bind, bind_eq_some_iff] at hres
  obtain ⟨_, ⟨m, -, ⟨⟩⟩, heq⟩ := hres
  rw [← (Prod.mk.inj (some.inj heq)).2]
  exact some_ne_none _

theorem Holds.freesNodes_iff (hh : Holds (checked M) st h hist N L)
    (hrange : ∀ c ∈ calls, c.1.InRange)
    (hs : (checked M).Supplies (requests hist (MatrixCall.puts (calls.map Prod.fst))) st.alloc)
    (hslots : SlotsApart M h calls st) : FreesNodes M h calls st ↔
    Vacant hist (calls.map Prod.fst) := by
  induction calls generalizing st hist N L with
  | nil => exact Iff.rfl
  | cons call calls ih =>
    obtain ⟨c, slot⟩ := call
    obtain ⟨hc, hcalls⟩ := forall_mem_cons.1 hrange
    cases c with
    | put q =>
      obtain ⟨hrow, hcol⟩ := hc
      obtain ⟨st', N', L', hput, hh', hs'⟩ := hh.put hrow hcol hs
      cases hlast : lastPut hist q.row q.col with
      | some v =>
        have hput : Ends ((MatrixCall.put q).exec (checked M) h · st) (st', some .newnode) := by
          rw [hlast] at hput
          exact hput
        refine iff_of_false (not_freesNodes (fun st'' var hends => ?_) hslots) fun hvacant => ?_
        · rw [← (Prod.mk.inj (hput.unique hends)).2]
          exact some_ne_none _
        · cases hlast.symm.trans hvacant.1
      | none =>
        have hput : Ends ((MatrixCall.put q).exec (checked M) h · st) (st', none) := by
          rw [hlast] at hput
          exact hput
        rw [freesNodes_cons_iff hput, ih hh' hcalls hs' (hslots.2 _ _ hput).2]
        exact (and_iff_right hlast).symm
    | clear row col =>
      obtain ⟨hrow, hcol⟩ := hc
      by_cases hlast : lastPut hist row col = none
      · have hclear : Ends ((MatrixCall.clear row col).exec (checked M) h · st) (st, none) :=
          (hh.clear_of_none hrow hcol hlast).bind (.of_eq fun _ => rfl)
        rw [freesNodes_cons_iff hclear, ih hh hcalls hs (hslots.2 _ _ hclear).2]
        exact (and_iff_right hlast).symm
      · exact iff_of_false
          (not_freesNodes (fun st'' var hends => hh.exec_clear_of_some hrow hcol hlast hends)
            hslots)
          fun hvacant => hlast hvacant.1

end Step

/-! ## Variables in the middle of a word -/

theorem notMem_live {slot : Nat} (M : Malloc) (s : Requests)
    (hslot : slot % MemoryDev.alignSize ≠ 0) :
    slot ∉ s.live M := fun hmem => by
  obtain ⟨-, ring, tab, htracks⟩ := MemoryDev.run_tracks M s.2
  obtain ⟨b, hb, rfl⟩ := mem_map.1 hmem
  obtain ⟨i, hi, -, hib, -⟩ := htracks.live_tab b hb
  have haligned := htracks.sound.aligned i (htracks.sound.tab_used i hi)
  rw [hib] at haligned
  exact hslot (Nat.mod_eq_zero_of_dvd haligned.1)

theorem slotsApart_of_misaligned {M : Malloc} {h : Nat} {calls : List (MatrixCall ο × Nat)}
    {st : State Requests ο} (hcalls : ∀ c ∈ calls, c.2 % MemoryDev.alignSize ≠ 0) :
    SlotsApart M h calls st := by
  induction calls generalizing st with
  | nil => trivial
  | cons c calls ih =>
    obtain ⟨hc, hcalls⟩ := forall_mem_cons.1 hcalls
    refine ⟨fun hzero => hc (by rw [hzero, Nat.zero_mod]), fun st' var _ =>
      ⟨notMem_live M st'.alloc hc, ih hcalls⟩⟩

/-! ## The run -/

/-- In the checked build a run of puts and clears releases nodes only, and returns from each call,
if and only if no call is about a cell with a value. -/
theorem freesNodes_iff_vacant (M : Malloc) (s : Requests) (calls : List (MatrixCall ο × Nat))
    (hrange : ∀ c ∈ calls, c.1.InRange)
    (hs : (checked M).Supplies (requests [] (MatrixCall.puts (calls.map Prod.fst)) + 1) s) :
    ∃ h st, new (checked M) ⟨s, fun _ => none⟩ = some (h, st) ∧
      (SlotsApart M h calls st → (FreesNodes M h calls st ↔ Vacant [] (calls.map Prod.fst))) := by
  obtain ⟨h, st, N, L, hnew, hh, hs⟩ := Holds.new (ο := ο) hs
  exact ⟨h, st, hnew, fun hslots => hh.freesNodes_iff hrange hs hslots⟩

theorem freesNodes_iff_vacant_bump : ∃ h st, new (checked .bump) ⟨⟨[], nofun⟩, fun _ => none⟩ =
    some (h, st) ∧ FreesNodes .bump h [(.put ⟨0, 0, some 5⟩, 8), (.clear 1 1, 8),
    (.put ⟨0, 1, some 6⟩, 8)] st := by
  obtain ⟨h, st, hnew, hiff⟩ := freesNodes_iff_vacant (ο := Nat) .bump ⟨[], nofun⟩
    [(.put ⟨0, 0, some 5⟩, 8), (.clear 1 1, 8), (.put ⟨0, 1, some 6⟩, 8)]
    (by simp [MatrixCall.InRange]) ⟨_, _, rfl, _, _, rfl, _, _, rfl, _, _, rfl, _, _, rfl, _,
      _, rfl, trivial⟩
  exact ⟨h, st, hnew, (hiff (slotsApart_of_misaligned (by decide))).2 ⟨rfl, rfl, rfl, trivial⟩⟩

/-- Two puts for one cell: the second one passes on the address of its variable, and `Memory_free`
raises `Assert_Failed`. -/
theorem not_freesNodes_overwrite : ∃ h st st1 st2, new (checked .bump) ⟨⟨[], nofun⟩, fun _ =>
    none⟩ = some (h, st) ∧ Ends (put (checked .bump) · st h 0 0 (some 5)) (st1, none) ∧
    Ends (put (checked .bump) · st1 h 0 0 (some 7)) (st2, some .newnode) ∧
    (MemoryDev.memoryFree 8 (here 51) (st2.alloc.mem .bump)).1 = .raise .assertFailed (here 51) ∧
    SlotsApart .bump h [(.put ⟨0, 0, some 5⟩, 8), (.put ⟨0, 0, some 7⟩, 8)] st ∧
    ¬FreesNodes .bump h [(.put ⟨0, 0, some 5⟩, 8), (.put ⟨0, 0, some 7⟩, 8)] st := by
  have hs : (checked .bump).Supplies 5 ⟨[], nofun⟩ :=
    ⟨_, _, rfl, _, _, rfl, _, _, rfl, _, _, rfl, _, _, rfl, trivial⟩
  obtain ⟨h, st, N, L, hnew, hh, hs⟩ := Holds.new (ο := Nat) hs
  obtain ⟨st1, N1, L1, hput1, hh1, hs1⟩ :=
    hh.put (q := ⟨0, 0, some 5⟩) (n := 1) (by decide) (by decide) hs
  obtain ⟨st2, N2, L2, hput2, hh2, -⟩ :=
    hh1.put (q := ⟨0, 0, some 7⟩) (n := 0) (by decide) (by decide) hs1
  have hslots : SlotsApart .bump h [(.put ⟨0, 0, some 5⟩, 8), (.put ⟨0, 0, some 7⟩, 8)] st :=
    slotsApart_of_misaligned (by decide)
  refine ⟨h, st, st1, st2, hnew, hput1, hput2, ?_, hslots, fun hfrees => ?_⟩
  · obtain ⟨-, ring, tab, htracks⟩ := MemoryDev.run_tracks .bump st2.alloc.2
    rcases MemoryDev.memoryFree_cases htracks (show 8 ≠ 0 by decide) (here 51) with ⟨hmem,
      -⟩ | ⟨-, hfree⟩
    · exact (notMem_live .bump st2.alloc (by decide) hmem).elim
    · exact congrArg Prod.fst hfree
  · have hput1 : Ends ((MatrixCall.put ⟨0, 0, some 5⟩).exec (checked .bump) h · st) (st1, none) :=
      hput1
    refine not_freesNodes (fun st' var hends => ?_) (hslots.2 _ _ hput1).2
      ((freesNodes_cons_iff hput1).1 hfrees)
    rw [← (Prod.mk.inj (hput2.unique hends)).2]
    exact some_ne_none _

end CLangProject.SparseMatrix

import CLangProject.Arena

/-!
# `Arena_free` conserves the chunks

The chunks of an arena are chained by the records saved in them: the record of
the arena names the first chunk and its limit, the record saved there the
second one, and so on down to the record of the new arena. `Arena_free` pops
one chunk after the other. While there are fewer than `THRESHOLD` chunks on
`freechunks` it pushes the chunk there, with its limit, and afterwards it gives
the chunk back.

A chunk is written with its limit, so that a list of such pairs describes both
a chain and `freechunks`. `Intact` says that an arena and `freechunks` have
given chunks; every pass of the loop moves one chunk (`Intact.keep`,
`Intact.release`) and `Intact.freeLoop` collects the passes.
-/

namespace CLangProject

open List

/-- With different base addresses, `free` gives back the only region there. -/
theorem CHeap.held_free {H : CHeap} (h : (H.held.map Extent.base).Nodup) (p : Nat) :
    (H.free p).held = H.held.filter fun r => r.base ≠ p := by
  obtain ⟨held, calls⟩ := H
  simp only [CHeap.free] at h ⊢
  induction held with
  | nil => rfl
  | cons r held ih =>
    obtain ⟨hr, hnodup⟩ := nodup_cons.1 h
    by_cases hp : r.base = p
    · have hrest : ∀ r' ∈ held, r'.base ≠ p :=
        fun r' hr' heq => hr (mem_map.2 ⟨r', hr', heq.trans hp.symm⟩)
      rw [eraseP_cons_of_pos (by simp [hp]), filter_cons_of_neg (by simp [hp]), filter_eq_self.2]
      simpa using hrest
    · rw [eraseP_cons_of_neg (by simp [hp]), filter_cons_of_pos (by simp [hp]), ih hnodup]

namespace Arena

/-! ## Chains of chunks -/

/-- A chunk and its limit. -/
abbrev Chunk := Nat × Nat

/-- The chunks of an arena with the record `A`, the current one first. The last one has the record
of a new arena. -/
def Chain (mem : Nat → Option Rec) : Rec → List Chunk → Prop
  | A, [] => A = ⟨0, 0, 0⟩
  | A, (c, limit) :: cs => A.prev = c ∧ c ≠ 0 ∧ A.limit = limit ∧ ∃ B, mem c = some B ∧
      Chain mem B cs

/-- The chunks linked by `prev` from the address `p` on, each with the limit stored in it. -/
def Linked (mem : Nat → Option Rec) : Nat → List Chunk → Prop
  | p, [] => p = 0
  | p, (c, limit) :: cs => p = c ∧ c ≠ 0 ∧ ∃ B, mem c = some B ∧ B.limit = limit ∧
      Linked mem B.prev cs

variable {mem mem' : Nat → Option Rec} {cs kept freed : List Chunk} {s1 s' : State}

theorem Chain.congr {A : Rec} (h : Chain mem A cs) (heq : ∀ c ∈ cs, mem' c.1 = mem c.1) :
    Chain mem' A cs := by
  induction cs generalizing A with
  | nil => exact h
  | cons c cs ih =>
    obtain ⟨hprev, h0, hlimit, B, hB, hchain⟩ := h
    obtain ⟨hc, hcs⟩ := forall_mem_cons.1 heq
    exact ⟨hprev, h0, hlimit, B, hc.trans hB, ih hchain hcs⟩

theorem Linked.congr {p : Nat} (h : Linked mem p cs) (heq : ∀ c ∈ cs, mem' c.1 = mem c.1) :
    Linked mem' p cs := by
  induction cs generalizing p with
  | nil => exact h
  | cons c cs ih =>
    obtain ⟨hp, h0, B, hB, hlimit, hlinked⟩ := h
    obtain ⟨hc, hcs⟩ := forall_mem_cons.1 heq
    exact ⟨hp, h0, B, hc.trans hB, hlimit, ih hlinked hcs⟩

/-- The arena `a` has the chunks `chain`, and `freechunks` has the chunks
`free`, at most `THRESHOLD` of them. -/
structure Intact (a : Nat) (chain free : List Chunk) (s : State) : Prop where
  arena : ∃ A, s.mem a = some A ∧ Chain s.mem A chain
  freechunks : Linked s.mem s.freechunks free
  notMem : ∀ c ∈ chain ++ free, c.1 ≠ a
  nodup : ((chain ++ free).map Prod.fst).Nodup
  held : ∀ c ∈ chain ++ free, c.1 ∈ s.heap.held.map Extent.base
  bases : (s.heap.held.map Extent.base).Nodup
  nfree : s.nfree = free.length
  le : free.length ≤ 10

/-! ## One pass -/

variable {a c limit : Nat} {chain free : List Chunk} {s : State}

section

variable (h : Intact a ((c, limit) :: chain) free s)
include h

theorem Intact.ne {b : Chunk} (hb : b ∈ chain ++ free) : b.1 ≠ a ∧ b.1 ≠ c := by
  refine ⟨h.notMem b (mem_cons_of_mem _ hb), ?_⟩
  rintro rfl
  exact (nodup_cons.1 h.nodup).1 (mem_map.2 ⟨b, hb, rfl⟩)

/-- The current chunk may be used for something else once the record saved in
it, `B`, has been copied. -/
theorem Intact.pop : ∃ A B, s.mem a = some A ∧ A.prev = c ∧ c ≠ 0 ∧
    A.limit = limit ∧ s.mem c = some B ∧ c ≠ a ∧ ∀ mem : Nat → Option Rec, (∀ b, b ≠ a → b ≠ c →
      mem b = s.mem b) → Chain mem B chain ∧ Linked mem s.freechunks free := by
  obtain ⟨A, hA, hprev, h0, hlimit, B, hB, hchain⟩ := h.arena
  refine ⟨A, B, hA, hprev, h0, hlimit, hB, h.notMem (c, limit) mem_cons_self, fun mem hmem => ?_⟩
  have hsame : ∀ b ∈ chain ++ free, mem b.1 = s.mem b.1 :=
    fun b hb => hmem b.1 (h.ne hb).1 (h.ne hb).2
  exact ⟨hchain.congr fun b hb => hsame b (mem_append_left _ hb),
    h.freechunks.congr fun b hb => hsame b (mem_append_right _ hb)⟩

/-- The chunk is pushed on `freechunks`. -/
theorem Intact.keep (hlt : free.length < 10) :
    ∃ s', (∀ fuel, freeLoop a (fuel + 1) s = freeLoop a fuel s') ∧
      Intact a chain ((c, limit) :: free) s' ∧ s'.heap = s.heap ∧ ∀ b, b ≠ a → b ≠ c →
        s'.mem b = s.mem b := by
  obtain ⟨A, B, hA, rfl, h0, rfl, hB, hca, hpop⟩ := h.pop
  have hn : s.nfree < threshold := by
    rw [h.nfree, threshold]
    omega
  let s' := ({ s with freechunks := A.prev, nfree := s.nfree + 1 }.set A.prev
    { B with prev := s.freechunks, limit := A.limit }).set a B
  have hframe : ∀ b, b ≠ a → b ≠ A.prev → s'.mem b = s.mem b := fun b hba hbc => by
    simp [s', State.set, hba, hbc]
  have hself : s'.mem A.prev = some { B with prev := s.freechunks, limit := A.limit } := by
    simp [s', State.set, hca]
  obtain ⟨hchain, hlinked⟩ := hpop s'.mem hframe
  have hperm : (chain ++ (A.prev, A.limit) :: free).Perm ((A.prev, A.limit) :: chain ++ free) :=
    perm_middle
  refine ⟨s', fun fuel => ?_, ?_, rfl, hframe⟩
  · simp only [freeLoop, hA, hB, if_neg h0, if_pos hn]
    rfl
  · exact {
      arena := ⟨B, by simp [s', State.set], hchain⟩
      freechunks := ⟨rfl, h0, _, hself, rfl, hlinked⟩
      notMem := fun b hb => h.notMem b (hperm.mem_iff.1 hb)
      nodup := (hperm.map Prod.fst).nodup_iff.2 h.nodup
      held := fun b hb => h.held b (hperm.mem_iff.1 hb)
      bases := h.bases
      nfree := by simp [s', State.set, h.nfree]
      le := hlt }

/-- The chunk is given back. -/
theorem Intact.release (hle : 10 ≤ free.length) :
    ∃ s', (∀ fuel, freeLoop a (fuel + 1) s = freeLoop a fuel s') ∧ Intact a chain free s' ∧
      s'.heap.held = s.heap.held.filter (fun r => r.base ≠ c) ∧ s'.mem c = none ∧
      ∀ b, b ≠ a → b ≠ c → s'.mem b = s.mem b := by
  obtain ⟨A, B, hA, rfl, h0, rfl, hB, hca, hpop⟩ := h.pop
  have hn : ¬ s.nfree < threshold := by
    rw [h.nfree, threshold]
    omega
  let s' :=
    State.set a B { s with heap := s.heap.free A.prev, mem := Function.update s.mem A.prev none }
  have hframe : ∀ b, b ≠ a → b ≠ A.prev → s'.mem b = s.mem b := fun b hba hbc => by
    simp [s', State.set, hba, hbc]
  have hheld : s'.heap.held = s.heap.held.filter fun r => r.base ≠ A.prev :=
    CHeap.held_free h.bases A.prev
  obtain ⟨hchain, hlinked⟩ := hpop s'.mem hframe
  refine ⟨s', fun fuel => ?_, ?_, hheld, by simp [s', State.set, hca], hframe⟩
  · simp only [freeLoop, hA, hB, if_neg h0, if_neg hn]
    rfl
  have hstill : ∀ b ∈ chain ++ free, b.1 ∈ s'.heap.held.map Extent.base := fun b hb => by
    obtain ⟨r, hr, heq⟩ := mem_map.1 (h.held b (mem_cons_of_mem _ hb))
    rw [hheld]
    exact mem_map.2 ⟨r, mem_filter.2 ⟨hr, by simpa [heq] using (h.ne hb).2⟩, heq⟩
  exact {
    arena := ⟨B, by simp [s', State.set], hchain⟩
    freechunks := hlinked
    notMem := fun b hb => (h.ne hb).1
    nodup := (nodup_cons.1 h.nodup).2
    held := hstill
    bases := hheld ▸ h.bases.sublist (filter_sublist.map _)
    nfree := h.nfree
    le := h.le }

end

/-! ## The whole chain -/

/-- What has become of the chunks of a chain: those `kept` are on `freechunks`
now, in front of the ones that were there, and exactly those `freed` have been
given back. Chunks are given back only when `freechunks` is full. -/
structure Conserved (a : Nat) (chain free kept freed : List Chunk) (s s' : State) : Prop where
  intact : Intact a [] (kept.reverse ++ free) s'
  split : chain = kept ++ freed
  full : freed ≠ [] → (kept.reverse ++ free).length = 10
  regions : s'.heap.held = s.heap.held.filter fun r => r.base ∉ freed.map Prod.fst
  gone : ∀ c ∈ freed, s'.mem c.1 = none
  frame : ∀ b, b ≠ a → b ∉ chain.map Prod.fst → s'.mem b = s.mem b

theorem Intact.conserved_nil (h : Intact a [] free s) : Conserved a [] free [] [] s s where
  intact := h
  split := rfl
  full := by simp
  regions := by simp
  gone := by simp
  frame _ _ _ := rfl

theorem Conserved.keep (hheap : s1.heap = s.heap) (hframe : ∀ b, b ≠ a → b ≠ c → s1.mem b = s.mem b)
    (h : Conserved a chain ((c, limit) :: free) kept freed s1 s') :
    Conserved a ((c, limit) :: chain) free ((c, limit) :: kept) freed s s' := by
  have hfree : ((c, limit) :: kept).reverse ++ free = kept.reverse ++ (c, limit) :: free := by simp
  exact {
    intact := hfree ▸ h.intact
    split := by rw [h.split, cons_append]
    full := hfree ▸ h.full
    regions := hheap ▸ h.regions
    gone := h.gone
    frame := fun b hb hmem => by
      obtain ⟨hbc, hmem⟩ := not_or.1 (mt mem_cons.2 hmem)
      rw [h.frame b hb hmem, hframe b hb hbc] }

/-- When `freechunks` is full, it stays as it is. -/
theorem Conserved.release (hfull : 10 ≤ free.length) (hca : c ≠ a) (hc : c ∉ chain.map Prod.fst)
    (hheld : s1.heap.held = s.heap.held.filter fun r => r.base ≠ c) (hgone : s1.mem c = none)
    (hframe : ∀ b, b ≠ a → b ≠ c → s1.mem b = s.mem b)
    (h : Conserved a chain free kept freed s1 s') :
    Conserved a ((c, limit) :: chain) free [] ((c, limit) :: freed) s s' := by
  obtain rfl : kept = [] := by
    have hle := h.intact.le
    rw [length_append, length_reverse] at hle
    exact length_eq_zero_iff.1 (by omega)
  exact {
    intact := h.intact
    split := by rw [h.split, nil_append, nil_append]
    full := fun _ => Nat.le_antisymm h.intact.le hfull
    regions := by
      rw [h.regions, hheld, filter_filter]
      refine filter_congr fun r _ => ?_
      simp only [map_cons, mem_cons, not_or, ← Bool.decide_and, ne_eq, decide_eq_decide]
      exact and_comm
    gone := fun b hb => by
      rcases mem_cons.1 hb with rfl | hb
      · rw [h.frame c hca hc, hgone]
      · exact h.gone b hb
    frame := fun b hb hmem => by
      obtain ⟨hbc, hmem⟩ := not_or.1 (mt mem_cons.2 hmem)
      rw [h.frame b hb hmem, hframe b hb hbc] }

theorem Intact.freeLoop {fuel : Nat} (h : Intact a chain free s) (hfuel : chain.length < fuel) :
    ∃ s' kept freed, freeLoop a fuel s = (.ok (), s') ∧ Conserved a chain free kept freed s s' := by
  induction chain generalizing free s fuel with
  | nil =>
    obtain ⟨fuel, rfl⟩ := Nat.exists_eq_add_one_of_ne_zero (Nat.ne_zero_of_lt hfuel)
    obtain ⟨A, hA, rfl⟩ := h.arena
    exact ⟨s, [], [], by simp [Arena.freeLoop, hA], h.conserved_nil⟩
  | cons b chain ih =>
    obtain ⟨c, limit⟩ := b
    obtain ⟨fuel, rfl⟩ := Nat.exists_eq_add_one_of_ne_zero (Nat.ne_zero_of_lt hfuel)
    have hfuel : chain.length < fuel := Nat.lt_of_succ_lt_succ hfuel
    rcases Nat.lt_or_ge free.length 10 with hlt | hge
    · obtain ⟨s1, hloop, h1, hheap, hframe⟩ := h.keep hlt
      obtain ⟨s', kept, freed, heq, hcons⟩ := ih h1 hfuel
      exact ⟨s', _, freed, (hloop fuel).trans heq, hcons.keep hheap hframe⟩
    · obtain ⟨s1, hloop, h1, hheld, hgone, hframe⟩ := h.release hge
      obtain ⟨s', kept, freed, heq, hcons⟩ := ih h1 hfuel
      have hca : c ≠ a := h.notMem (c, limit) mem_cons_self
      have hc : c ∉ chain.map Prod.fst := fun hc => by
        obtain ⟨b, hb, rfl⟩ := mem_map.1 hc
        exact (h.ne (mem_append_left _ hb)).2 rfl
      exact ⟨s', _, _, (hloop fuel).trans heq, hcons.release hge hca hc hheld hgone hframe⟩

/-- Every chunk is a region of its own. -/
theorem Intact.length_le (h : Intact a chain free s) : chain.length ≤ s.heap.held.length := by
  have hsub : (chain ++ free).map Prod.fst ⊆ s.heap.held.map Extent.base := fun b hb => by
    obtain ⟨c, hc, rfl⟩ := mem_map.1 hb
    exact h.held c hc
  have := (Nodup.subperm h.nodup hsub).length_le
  simp only [length_map, length_append] at this
  omega

/-- **`Arena_free` conserves the chunks.** The arena ends as a new one. The
chunks of its chain, from the current one on, are pushed on `freechunks`, each
with its limit, until there are `THRESHOLD` chunks; the others are given back. -/
theorem arenaFree_conserves (ha : a ≠ 0) (h : Intact a chain free s) :
    ∃ s' kept freed, arenaFree a s = (.ok (), s') ∧ s'.mem a = some ⟨0, 0, 0⟩ ∧
      Conserved a chain free kept freed s s' := by
  obtain ⟨s', kept, freed, hloop, hcons⟩ := h.freeLoop (Nat.lt_succ_of_le h.length_le)
  obtain ⟨A, hA, rfl⟩ := hcons.intact.arena
  exact ⟨s', kept, freed, by simp [arenaFree, ha, hloop, hA], hA, hcons⟩

/-- One chunk, and one on `freechunks`. -/
def oneChunk : State where
  mem := fun b => if b = 16 then some ⟨64, 96, 128⟩ else if b = 64 then some ⟨0, 0, 0⟩
    else if b = 128 then some ⟨0, 0, 192⟩ else none
  freechunks := 128
  nfree := 1
  heap := ⟨[⟨128, 64⟩, ⟨64, 64⟩, ⟨16, 24⟩], 3⟩

theorem intact_oneChunk : Intact 16 [(64, 128)] [(128, 192)] oneChunk where
  arena := ⟨⟨64, 96, 128⟩, rfl, rfl, by decide, rfl, ⟨0, 0, 0⟩, rfl, rfl⟩
  freechunks := ⟨rfl, by decide, ⟨0, 0, 192⟩, rfl, rfl, rfl⟩
  notMem := by decide
  nodup := by decide
  held := by decide
  bases := by decide
  nfree := rfl
  le := by decide

theorem arenaFree_conserves_oneChunk : ∃ s' kept freed, arenaFree 16 oneChunk = (.ok (), s') ∧
    s'.mem 16 = some ⟨0, 0, 0⟩ ∧ Conserved 16 [(64, 128)] [(128, 192)] kept freed oneChunk s' :=
  arenaFree_conserves (by decide) intact_oneChunk

end Arena

end CLangProject

import CLangProject.MemDev

/-!
# What every request to the checked allocator keeps

`Wired s ring`: the free list of `s` is the circle `freelist → ring →
freelist`, the chains of the hash table end, and every descriptor lies in a
region held. All this survives any call, also one whose size wraps modulo
`2 ^ 64`; the descriptors may then be empty or share an address, which is why
the blocks are left to a stronger invariant.

`Memory_alloc` takes the first descriptor of the ring with more space than
needed (`first_fit`) or links a new chunk into the ring and starts again
(`Wired.chunk`). A request that wraps may need many chunks: each of them is too
small. It still ends (`Wired.ends`), because every chunk uses up a descriptor
and the pools of descriptors use up the address space.
-/

namespace CLangProject

open List

namespace MemoryDev

/-! ## Field lemmas -/

namespace Mem

/-- The descriptors handed out by `__dalloc`. -/
def Used (s : Mem) (i : Nat) : Prop := 0 < i ∧ i < s.avail

/-- What is left of the space of a descriptor. -/
def extent (s : Mem) (i : Nat) : Extent := ⟨(s.desc i).ptr, (s.desc i).size⟩

def freeOf (s : Mem) (i : Nat) : Option Nat := (s.desc i).free

def linkOf (s : Mem) (i : Nat) : Option Nat := (s.desc i).link

variable (s : Mem) (i j n : Nat) (p : Option Nat)

theorem modify_desc (f : Descriptor → Descriptor) :
    (s.modify i f).desc j = if j = i then f (s.desc j) else s.desc j := by
  by_cases hj : j = i
  · subst hj; simp [modify]
  · simp [modify, hj]

/-- A field that is not assigned. -/
theorem modify_read {α : Type} {f : Descriptor → Descriptor} {g : Descriptor → α}
    (hg : ∀ d, g (f d) = g d) :
    g ((s.modify i f).desc j) = g (s.desc j) := by
  rw [modify_desc]
  split_ifs
  · exact hg _
  · rfl

theorem setFree_desc : (s.setFree i p).desc j = if j = i then
    { s.desc j with free := p } else s.desc j :=
  s.modify_desc i j _

theorem setLink_desc : (s.setLink i p).desc j = if j = i then
    { s.desc j with link := p } else s.desc j :=
  s.modify_desc i j _

theorem setSize_desc : (s.setSize i n).desc j = if j = i then
    { s.desc j with size := n } else s.desc j :=
  s.modify_desc i j _

theorem setSize_freeOf : (s.setSize i n).freeOf = s.freeOf :=
  funext fun j => s.modify_read i j fun _ => rfl

theorem setSize_linkOf : (s.setSize i n).linkOf = s.linkOf :=
  funext fun j => s.modify_read i j fun _ => rfl

theorem setLink_freeOf : (s.setLink i p).freeOf = s.freeOf :=
  funext fun j => s.modify_read i j fun _ => rfl

theorem setFree_linkOf : (s.setFree i p).linkOf = s.linkOf :=
  funext fun j => s.modify_read i j fun _ => rfl

theorem setLink_extent : (s.setLink i p).extent = s.extent :=
  funext fun j => s.modify_read (g := fun d => Extent.mk d.ptr d.size) i j fun _ => rfl

theorem setFree_extent : (s.setFree i p).extent = s.extent :=
  funext fun j => s.modify_read (g := fun d => Extent.mk d.ptr d.size) i j fun _ => rfl

end Mem

section

variable (s : Mem)
include s

theorem enter_desc (p k j : Nat) : (enter p k s).desc j =
    if j = k then { s.desc j with link := s.htab (hash p) } else s.desc j :=
  s.setLink_desc k j _

theorem enter_freeOf (p k : Nat) : (enter p k s).freeOf = s.freeOf :=
  s.setLink_freeOf k (s.htab (hash p))

theorem enter_extent (p k : Nat) : (enter p k s).extent = s.extent :=
  s.setLink_extent k (s.htab (hash p))

theorem enter_htab (p k h : Nat) :
    (enter p k s).htab h = if h = hash p then some k else s.htab h := by
  by_cases hh : h = hash p
  · subst hh; simp [enter, Mem.setBucket]
  · simp [enter, Mem.setBucket, Mem.setLink, Mem.modify, hh]

/-- `release` changes only the `free` links of `freelist` and of `k`. -/
theorem release_desc {k : Nat} (hk : k ≠ 0) (j : Nat) : (release k s).desc j =
    if j = 0 then { s.desc j with free := some k }
    else if j = k then { s.desc j with free := (s.desc 0).free } else s.desc j := by
  unfold release
  rw [Mem.setFree_desc, Mem.setFree_desc]
  by_cases h0 : j = 0
  · subst h0; simp [hk.symm]
  · simp [h0]

theorem release_linkOf (k : Nat) : (release k s).linkOf = s.linkOf :=
  (Mem.setFree_linkOf ..).trans (Mem.setFree_linkOf ..)

theorem release_extent (k : Nat) : (release k s).extent = s.extent :=
  (Mem.setFree_extent ..).trans (Mem.setFree_extent ..)

end

/-- The state after `__dalloc` has handed out a descriptor. -/
def addDesc (ptr size : Nat) (loc : Coord) (s : Mem) : Mem :=
  { s with
    desc := Function.update s.desc s.avail ⟨none, none, ptr, size, loc.file, loc.line⟩
    avail := s.avail + 1 }

theorem addDesc_desc_of_ne {s : Mem} {ptr size : Nat} {loc : Coord} {j : Nat} (hj : j ≠ s.avail) :
    (addDesc ptr size loc s).desc j = s.desc j := by
  simp [addDesc, hj]

theorem addDesc_desc_self (ptr size : Nat) (loc : Coord) (s : Mem) :
    (addDesc ptr size loc s).desc s.avail = ⟨none, none, ptr, size, loc.file, loc.line⟩ := by
  simp [addDesc]

theorem addDesc_used {s : Mem} (ptr size : Nat) (loc : Coord) (hs : 0 < s.avail) (i : Nat) :
    (addDesc ptr size loc s).Used i ↔ s.Used i ∨ i = s.avail := by
  simp only [Mem.Used, addDesc]
  omega

/-! ## What survives a call -/

/-- From `s` to `s'` no descriptor changes its address or moves between
live and freed, and a live one keeps its size. -/
structure Kept (s s' : Mem) : Prop where
  avail : s.avail ≤ s'.avail
  ptr : ∀ i, s.Used i → (s'.desc i).ptr = (s.desc i).ptr
  free : ∀ i, s.Used i → (s'.freeOf i = none ↔ s.freeOf i = none)
  size : ∀ i, s.Used i → s.freeOf i = none → (s'.desc i).size = (s.desc i).size

theorem Kept.used {s s' : Mem} (h : Kept s s') {i : Nat} (hi : s.Used i) : s'.Used i :=
  ⟨hi.1, Nat.lt_of_lt_of_le hi.2 h.avail⟩

theorem Kept.trans {s1 s2 s3 : Mem} (h1 : Kept s1 s2) (h2 : Kept s2 s3) : Kept s1 s3 where
  avail := Nat.le_trans h1.avail h2.avail
  ptr i hi := (h2.ptr i (h1.used hi)).trans (h1.ptr i hi)
  free i hi := (h2.free i (h1.used hi)).trans (h1.free i hi)
  size i hi hf := (h2.size i (h1.used hi) ((h1.free i hi).mpr hf)).trans (h1.size i hi hf)

theorem Kept.refl (s : Mem) : Kept s s :=
  ⟨Nat.le_refl _, fun _ _ => rfl, fun _ _ => Iff.rfl, fun _ _ _ => rfl⟩

theorem Kept.heap {s s' : Mem} (h : Kept s s') (H : CHeap) (k : Nat) :
    Kept s { s' with heap := H, nleft := k } :=
  ⟨h.avail, h.ptr, h.free, h.size⟩

section
variable {s : Mem}

theorem Kept.addDesc (ptr size : Nat) (loc : Coord) (s : Mem) :
    Kept s (addDesc ptr size loc s) := by
  have hold : ∀ i, s.Used i → (MemoryDev.addDesc ptr size loc s).desc i = s.desc i :=
    fun i hi => addDesc_desc_of_ne (Nat.ne_of_lt hi.2)
  refine ⟨Nat.le_succ _, fun i hi => ?_, fun i hi => ?_, fun i hi _ => ?_⟩
  · rw [hold i hi]
  · rw [Mem.freeOf, hold i hi]; rfl
  · rw [hold i hi]

theorem Kept.enter (ptr k : Nat) (s : Mem) : Kept s (enter ptr k s) := by
  have hext := congrFun (enter_extent s ptr k)
  exact ⟨Nat.le_refl _, fun i _ => congrArg Extent.base (hext i), fun i _ => by rw [enter_freeOf],
    fun i _ _ => congrArg Extent.size (hext i)⟩

/-- Cutting a descriptor on the free list touches no live block. -/
theorem Kept.cut {i : Nat} (hi : s.freeOf i ≠ none) (n : Nat) : Kept s (s.setSize i n) := by
  refine ⟨Nat.le_refl _, fun j _ => ?_, fun j _ => ?_, fun j _ hf => ?_⟩
  · rw [Mem.setSize_desc]
    split_ifs <;> rfl
  · simp only [Mem.freeOf, Mem.setSize_desc]
    split_ifs <;> rfl
  · have hne : j ≠ i := fun he => hi (he ▸ hf)
    rw [Mem.setSize_desc, if_neg hne]

/-- Linking a new descriptor into the ring touches no older one. -/
theorem Kept.release {s1 : Mem} {k : Nat} (h : Kept s s1) (hk : s.avail ≤ k) (hk0 : k ≠ 0) :
    Kept s (release k s1) := by
  have hdesc : ∀ i, s.Used i → (MemoryDev.release k s1).desc i = s1.desc i := by
    intro i hi
    rw [release_desc s1 hk0, if_neg (Nat.ne_of_gt hi.1),
      if_neg (Nat.ne_of_lt (Nat.lt_of_lt_of_le hi.2 hk))]
  refine ⟨h.avail, fun i hi => ?_, fun i hi => ?_, fun i hi hf => ?_⟩
  · rw [hdesc i hi]; exact h.ptr i hi
  · rw [Mem.freeOf, hdesc i hi]; exact h.free i hi
  · rw [hdesc i hi]; exact h.size i hi hf

end

/-! ## The invariant -/

structure Wired (s : Mem) (ring : List Nat) : Prop where
  avail_pos : 0 < s.avail
  sentinel : (s.desc 0).size = 0
  path : Path s.freeOf (s.freeOf 0) ring (some 0)
  nodup : ring.Nodup
  used : ∀ i ∈ ring, s.Used i
  bucket : ∀ h, ∃ l, Path s.linkOf (s.htab h) l none ∧ l.Nodup ∧ ∀ i ∈ l, s.Used i
  inside : ∀ i, s.Used i → ∃ r ∈ s.heap.held, (s.extent i).Within r

theorem Wired.init : Wired Mem.init [] where
  avail_pos := Nat.one_pos
  sentinel := rfl
  path := rfl
  nodup := nodup_nil
  used := by simp
  bucket h := ⟨[], rfl, nodup_nil, by simp⟩
  inside := by
    rintro i ⟨h1, h2⟩
    simp only [Mem.init] at h2
    omega

section
variable {s : Mem} {ring : List Nat}

section

variable (h : Wired s ring)
include h

theorem Wired.free_ne_none {i : Nat} (hi : i ∈ ring) : s.freeOf i ≠ none :=
  h.path.next_ne_none (Option.some_ne_none 0) hi

theorem Wired.heap {H : CHeap} (k : Nat) (hheld : s.heap.held ⊆ H.held) :
    Wired { s with heap := H, nleft := k } ring where
  __ := h
  inside i hi := by
    obtain ⟨r, hr, hin⟩ := h.inside i hi
    exact ⟨r, hheld hr, hin⟩

theorem Wired.bytes (b : Nat → UInt8) : Wired { s with bytes := b } ring where
  __ := h

/-- A descriptor loses its back. -/
theorem Wired.cut {i : Nat} (hi : s.Used i) (n : Nat) :
    Wired (s.setSize i ((s.desc i).size - n)) ring where
  avail_pos := h.avail_pos
  sentinel := by
    rw [Mem.setSize_desc, if_neg (Nat.ne_of_lt hi.1)]
    exact h.sentinel
  path := by rw [Mem.setSize_freeOf]; exact h.path
  nodup := h.nodup
  used := h.used
  bucket := by rw [Mem.setSize_linkOf]; exact h.bucket
  inside := by
    intro j hj
    obtain ⟨r, hr, hin⟩ := h.inside j hj
    refine ⟨r, hr, Extent.Within.trans ?_ hin⟩
    simp only [Mem.extent, Mem.setSize_desc]
    split_ifs with hji
    · subst hji
      exact Extent.front_within n (s.extent j)
    · exact Extent.Within.refl _

/-- A descriptor for free space. -/
theorem Wired.fresh (ptr size : Nat) (loc : Coord)
    (hin : ∃ r ∈ s.heap.held, (Extent.mk ptr size).Within r) :
    Wired (addDesc ptr size loc s) ring := by
  have hold : ∀ i, s.Used i → (addDesc ptr size loc s).desc i = s.desc i :=
    fun i hi => addDesc_desc_of_ne (Nat.ne_of_lt hi.2)
  have hzero : (addDesc ptr size loc s).desc 0 = s.desc 0 :=
    addDesc_desc_of_ne (Nat.ne_of_lt h.avail_pos)
  have hused := addDesc_used ptr size loc h.avail_pos
  exact {
    avail_pos := Nat.succ_pos _
    sentinel := by rw [hzero]; exact h.sentinel
    path := by
      rw [Mem.freeOf, hzero]
      refine h.path.congr fun i hi => ?_
      rw [Mem.freeOf, hold i (h.used i hi)]
      rfl
    nodup := h.nodup
    used := fun i hi => (hused i).mpr (Or.inl (h.used i hi))
    bucket := by
      intro b
      obtain ⟨l, hl, hnd, hmem⟩ := h.bucket b
      refine ⟨l, hl.congr fun i hi => ?_, hnd, fun i hi => (hused i).mpr (Or.inl (hmem i hi))⟩
      rw [Mem.linkOf, hold i (hmem i hi)]
      rfl
    inside := by
      intro i hi
      rcases (hused i).mp hi with hi | rfl
      · rw [Mem.extent, hold i hi]
        exact h.inside i hi
      · rw [Mem.extent, addDesc_desc_self]
        exact hin }

/-- The new descriptor is chained into its bucket. -/
theorem Wired.grant (ptr size : Nat) (loc : Coord)
    (hin : ∃ r ∈ s.heap.held, (Extent.mk ptr size).Within r) :
    Wired (enter ptr s.avail (addDesc ptr size loc s)) ring := by
  have hf := h.fresh ptr size loc hin
  exact {
    avail_pos := hf.avail_pos
    sentinel := (congrArg Extent.size (congrFun (enter_extent _ ptr s.avail) 0)).trans hf.sentinel
    path := by rw [enter_freeOf]; exact hf.path
    nodup := hf.nodup
    used := hf.used
    bucket := by
      intro b
      obtain ⟨l, hl, hnd, hmem⟩ := h.bucket b
      have hkl : s.avail ∉ l := fun hkl => Nat.lt_irrefl _ (hmem _ hkl).2
      have hused : ∀ i ∈ l, (enter ptr s.avail (addDesc ptr size loc s)).Used i := fun i hi =>
        (addDesc_used ptr size loc h.avail_pos i).mpr (Or.inl (hmem i hi))
      have hpath : Path (enter ptr s.avail (addDesc ptr size loc s)).linkOf (s.htab b) l none := by
        refine hl.congr fun i hi => ?_
        have hne := ne_of_mem_of_not_mem hi hkl
        rw [Mem.linkOf, enter_desc, if_neg hne, addDesc_desc_of_ne hne]
        rfl
      rw [enter_htab]
      by_cases hb : b = hash ptr
      · subst hb
        rw [if_pos rfl]
        refine ⟨s.avail :: l, ⟨rfl, ?_⟩, nodup_cons.mpr ⟨hkl, hnd⟩, ?_⟩
        · rw [Mem.linkOf, enter_desc, if_pos rfl]
          exact hpath
        · exact forall_mem_cons.mpr ⟨⟨h.avail_pos, Nat.lt_succ_self _⟩, hused⟩
      · rw [if_neg hb]
        exact ⟨l, hpath, hnd, hused⟩
    inside := by rw [enter_extent]; exact hf.inside }

/-- A used descriptor off the ring is linked in behind `freelist`. -/
theorem Wired.release {k : Nat} (hk : s.Used k) (hring : k ∉ ring) :
    Wired (release k s) (k :: ring) := by
  have hk0 : k ≠ 0 := Nat.ne_of_gt hk.1
  have hdesc := release_desc s hk0
  exact {
    avail_pos := h.avail_pos
    sentinel := (congrArg Extent.size (congrFun (release_extent s k) 0)).trans h.sentinel
    path := by
      refine ⟨by rw [Mem.freeOf, hdesc, if_pos rfl], ?_⟩
      rw [Mem.freeOf, hdesc, if_neg hk0, if_pos rfl]
      refine h.path.congr fun i hi => ?_
      have hi0 : i ≠ 0 := Nat.ne_of_gt (h.used i hi).1
      rw [Mem.freeOf, hdesc, if_neg hi0, if_neg (ne_of_mem_of_not_mem hi hring)]
      rfl
    nodup := nodup_cons.mpr ⟨hring, h.nodup⟩
    used := forall_mem_cons.mpr ⟨hk, h.used⟩
    bucket := by rw [release_linkOf]; exact h.bucket
    inside := by rw [release_extent]; exact h.inside }

end

/-! ## `__dalloc` -/

/-- The pool of descriptors is empty and `malloc` returns NULL for a new one. -/
def PoolRefused (M : Malloc) (s : Mem) : Prop :=
  s.nleft = 0 ∧ (M.malloc (nDescriptors * descriptorSize) s.heap).1 = none

instance (M : Malloc) (s : Mem) : Decidable (PoolRefused M s) := inferInstanceAs (Decidable (_ ∧ _))

/-- The room on the heap and the descriptors left, which `__dalloc` uses up. -/
def Mem.reserve (s : Mem) : Nat := s.heap.room + s.nleft

/-- `__dalloc` hands out the next descriptor, or leaves everything but the
heap's call count as it was. -/
theorem dalloc_cases (M : Malloc) {ptr : Nat} (hptr : 0 < ptr) (size : Nat)
    (loc : Coord) (s : Mem) :
    (¬ PoolRefused M s ∧ ∃ H nleft, s.heap.held ⊆ H.held ∧ H.room + nleft < s.reserve ∧
      (nleft = 0 ↔ s.nleft = 1) ∧ (s.nleft = 1 → H = s.heap) ∧ dalloc M ptr size loc s
        = (.ok (some s.avail), addDesc ptr size loc { s with heap := H, nleft := nleft })) ∨
    (PoolRefused M s ∧ ∃ H, H.held = s.heap.held ∧
      dalloc M ptr size loc s = (.ok none, { s with heap := H })) := by
  unfold dalloc refill PoolRefused Mem.reserve
  rw [if_neg (Nat.ne_of_gt hptr)]
  by_cases h0 : s.nleft = 0
  · rw [if_pos h0]
    rcases M.malloc_cases (nDescriptors * descriptorSize) s.heap with ⟨a, ha, -⟩ | ha
    · have hroom := M.room_malloc ha
      rw [ha]
      refine .inl ⟨by simp, _, nDescriptors - 1, subset_cons_self _ _,
        ?_, by simp [h0, nDescriptors], by simp [h0], rfl⟩
      simp only [nDescriptors, descriptorSize] at hroom ⊢
      omega
    · rw [ha]
      exact .inr ⟨⟨h0, rfl⟩, ⟨s.heap.held, s.heap.calls + 1⟩, rfl, rfl⟩
  · rw [if_neg h0]
    exact .inl ⟨fun h => h0 h.1, s.heap, s.nleft - 1, List.Subset.refl _, by omega, by omega,
      fun _ => rfl, rfl⟩

/-! ## The loop of `Memory_alloc` -/

/-- `malloc` returns NULL for the chunk, or for a pool with a descriptor for it. -/
def ChunkRefused (M : Malloc) (n : Nat) (s : Mem) : Prop :=
  (M.malloc (sizeT (n + nalloc)) s.heap).1 = none ∨
    PoolRefused M { s with heap := (M.malloc (sizeT (n + nalloc)) s.heap).2 }

instance (M : Malloc) (n : Nat) (s : Mem) : Decidable (ChunkRefused M n s) :=
  inferInstanceAs (Decidable (_ ∨ _))

/-- The chunk takes the last descriptor of the pool, and `malloc` returns NULL for a pool with a
descriptor for the block. -/
def CutRefused (M : Malloc) (n : Nat) (s : Mem) : Prop :=
  s.nleft = 1 ∧
    PoolRefused M { s with heap := (M.malloc (sizeT (n + nalloc)) s.heap).2, nleft := 0 }

variable (M : Malloc) (n : Nat) (loc : Coord)

/-- At a descriptor with the space its back is handed out, or there is no
descriptor for the block. -/
theorem allocLoop_cut {i p : Nat} (hlt : n < (s.desc i).size)
    (hp : p = (s.desc i).ptr + ((s.desc i).size - n)) :
    (¬ PoolRefused M s ∧ ∃ H nleft, s.heap.held ⊆ H.held ∧
        ∀ fuel, allocLoop M n loc (fuel + 1) (some i) s
      = (.ok p, enter p s.avail
          (addDesc p n loc { s.setSize i ((s.desc i).size - n) with heap := H, nleft := nleft }))) ∨
    (PoolRefused M s ∧ ∃ l H, H.held = s.heap.held ∧ ∀ fuel, allocLoop M n loc (fuel + 1) (some i) s
      = (.raise .memoryFailed l, { s.setSize i ((s.desc i).size - n) with heap := H })) := by
  obtain ⟨l, hl⟩ := Outcome.throwAt_raises (α := Nat) Exc.memoryFailed loc (here 128)
  have hstep : ∀ fuel, allocLoop M n loc (fuel + 1) (some i) s = _ := fun fuel => by
    rw [allocLoop, if_pos hlt, ← hp]
  rcases dalloc_cases M (show 0 < p by omega) n loc (s.setSize i ((s.desc i).size - n)) with
    ⟨hpool, H, nleft, hsub, -, -, -, hd⟩ | ⟨hpool, H, hheld, hd⟩ <;> simp only [hd, hl] at hstep
  · exact .inl ⟨hpool, H, nleft, hsub, hstep⟩
  · exact .inr ⟨hpool, l, H, hheld, hstep⟩

/-- Back at `freelist` a new chunk is refused, or linked into the ring before
the loop starts again. -/
theorem allocLoop_chunk (h0 : (s.desc 0).size = 0) :
    (ChunkRefused M n s ∧ ∃ l H, H.held = s.heap.held ∧
      ∀ fuel, allocLoop M n loc (fuel + 1) (some 0) s = (.raise .memoryFailed l,
      { s with heap := H })) ∨
    (¬ ChunkRefused M n s ∧
        ∃ a H nleft, (0 < a ∧ 16 ∣ a ∧
        ∀ r ∈ s.heap.held, (Extent.mk a (sizeT (n + nalloc))).Apart r) ∧
      ⟨a, sizeT (n + nalloc)⟩ :: s.heap.held ⊆ H.held ∧ H.room + nleft < s.reserve ∧
      (PoolRefused M { s with heap := H, nleft := nleft } ↔ CutRefused M n s) ∧
      ∀ fuel, allocLoop M n loc (fuel + 1) (some 0) s = allocLoop M n loc fuel (some s.avail)
          (release s.avail (addDesc a (sizeT (n + nalloc)) (here 139)
            { s with heap := H, nleft := nleft }))) := by
  obtain ⟨l, hl⟩ := Outcome.throwAt_raises (α := Nat) Exc.memoryFailed loc (here 147)
  have hstep : ∀ fuel, allocLoop M n loc (fuel + 1) (some 0) s = _ := fun fuel => by
    rw [allocLoop, if_neg (by rw [h0]; omega), if_pos rfl]
  unfold ChunkRefused CutRefused
  rcases M.malloc_cases (sizeT (n + nalloc)) s.heap with ⟨a, ha, hpos, h16, -, hap⟩ | ha
  · have hroom := M.room_malloc ha
    simp only [ha] at hstep ⊢
    rcases dalloc_cases M hpos (sizeT (n + nalloc)) (here 139)
      { s with heap := ⟨⟨a, sizeT (n + nalloc)⟩ :: s.heap.held, s.heap.calls + 1⟩ } with
      ⟨hpool, H, nleft, hsub, hres, hleft, hheap, hd⟩ | ⟨hpool, H, hheld, hd⟩ <;>
        simp only [hd, hl] at hstep
    · refine .inr ⟨by simp [hpool], a, H, nleft, ⟨hpos, h16, hap⟩, hsub, ?_, ?_, fun fuel => ?_⟩
      · unfold Mem.reserve at *
        simp only at hres
        omega
      · simp only [PoolRefused, hleft, true_and]
        exact and_congr_right fun h1 => by rw [hheap h1]
      · rw [hstep fuel]
        congr 1
    · -- the chunk is given back when there is no descriptor for it
      refine .inl ⟨.inr hpool, l, H.free a, ?_, hstep⟩
      simp only at hheld
      simp [CHeap.free, hheld]
  · simp only [ha, hl] at hstep ⊢
    exact .inl ⟨.inl trivial, l, ⟨s.heap.held, s.heap.calls + 1⟩, rfl, hstep⟩

/-- The loop passes over descriptors that are too small. -/
theorem allocLoop_walk {p q : Option Nat} {l : List Nat} (hpath : Path s.freeOf p l q)
    (hl : ∀ i ∈ l, i ≠ 0 ∧ (s.desc i).size ≤ n) (fuel : Nat) :
    allocLoop M n loc (fuel + l.length) p s = allocLoop M n loc fuel q s := by
  induction l generalizing p with
  | nil =>
    obtain rfl : p = q := hpath
    rfl
  | cons i l ih =>
    obtain ⟨rfl, hpath⟩ := hpath
    obtain ⟨⟨hi, hsize⟩, hl⟩ := forall_mem_cons.1 hl
    rw [length_cons, ← Nat.add_assoc, allocLoop, if_neg (Nat.not_lt.2 hsize), if_neg hi]
    exact ih hpath hl

/-- The loop comes to the first descriptor with more space than needed, or
back to `freelist`. -/
theorem Wired.first_fit (h : Wired s ring) :
    (∃ i ∈ ring, n < (s.desc i).size ∧ ∃ k ≤ ring.length, ∀ fuel,
      allocLoop M n loc (fuel + k) (s.freeOf 0) s = allocLoop M n loc fuel (some i) s) ∨
    ((∀ i ∈ ring, (s.desc i).size ≤ n) ∧ ∃ k ≤ ring.length, ∀ fuel,
      allocLoop M n loc (fuel + k) (s.freeOf 0) s = allocLoop M n loc fuel (some 0) s) := by
  have hne : ∀ i ∈ ring, i ≠ 0 := fun i hi => Nat.ne_of_gt (h.used i hi).1
  cases hfind : ring.find? fun i => n < (s.desc i).size with
  | none =>
    have hsmall : ∀ i ∈ ring, (s.desc i).size ≤ n := fun i hi => by
      simpa using List.find?_eq_none.1 hfind i hi
    exact .inr ⟨hsmall, ring.length, Nat.le_refl _, fun fuel =>
      allocLoop_walk M n loc h.path (fun i hi => ⟨hne i hi, hsmall i hi⟩) fuel⟩
  | some i =>
    obtain ⟨hi, pre, post, hring, hpre⟩ := List.find?_eq_some_iff_append.1 hfind
    have hpath := h.path
    rw [hring] at hpath
    obtain ⟨q, hp, rfl, -⟩ := path_append.1 hpath
    refine .inl ⟨i, by simp [hring], by simpa using hi, pre.length, by simp [hring], fun fuel =>
      allocLoop_walk M n loc hp (fun j hj => ⟨hne j (by simp [hring, hj]), ?_⟩) fuel⟩
    simpa using hpre j hj

end

end MemoryDev

end CLangProject
